import Stimulus.Proofs.Run.Refinement

/-!
# What sequences hold

At all times a sequence holds 0 or the number of an event that its script waits for, and its
counters hold integers. This is an invariant of every run of the code of a module, whether the
sequences are guarded or not.

## Main definitions

* `Statement.Performs`: all that a statement may come to perform has a property.
* `Code.Config.Safe`: all that is left to do keeps an invariant of the store.
* `Compiled.Holds`: what a sequence holds.

## Main results

* `Code.step_safe`, `Code.steps_safe`: a step and a run keep an invariant that all statements keep.
* `Module.Hosts.holds_of_steps`: in every run, sequences hold what they may hold.
-/

namespace Stimulus

open Machine Sequence

/-! ### What a statement may come to perform -/

mutual

/-- All plain statements that a statement may come to perform have a property. -/
def Statement.Performs (P : Statement → Prop) : Statement → Prop
  | .command c => P (.command c)
  | .block (.raw header) body => P (.block (.raw header) body)
  | .list items => PerformsOf P items
  | .branch _ yes no => PerformsOf P yes ∧ PerformsOf P no
  | .select _ arms => PerformsArms P arms
  | .block (.whileLoop _) body => PerformsOf P body
  | .block (.forLoop start _ next) body =>
    P (.command start) ∧ P (.command next) ∧ PerformsOf P body
  | .block (.repeatLoop _) body => PerformsOf P body
  | .block (.onEvent _) _ => True
  | .step (.mark state _) => P (.command state.toggle)
  | .step (.delay _) => True
  | .step (.signal _) => True

/-- All plain statements that some statements may come to perform have a property. -/
def PerformsOf (P : Statement → Prop) : List Statement → Prop
  | [] => True
  | s :: rest => s.Performs P ∧ PerformsOf P rest

/-- All plain statements that the arms of a case may come to perform have a property. -/
def PerformsArms (P : Statement → Prop) : List Arm → Prop
  | [] => True
  | .mk _ body :: rest => PerformsOf P body ∧ PerformsArms P rest

end

section Performs

variable {P : Statement → Prop}

/-- Statements perform one after the other. -/
theorem performsOf_iff {items : List Statement} :
    PerformsOf P items ↔ ∀ s ∈ items, s.Performs P := by
  induction items with
  | nil => simp [PerformsOf]
  | cons s rest ih => simp [PerformsOf, ih]

/-- Arms perform one or the other. -/
theorem performsArms_iff {arms : List Arm} :
    PerformsArms P arms ↔ ∀ a ∈ arms, ∀ s ∈ a.body, s.Performs P := by
  induction arms with
  | nil => simp [PerformsArms]
  | cons a rest ih =>
      obtain ⟨label, body⟩ := a
      simp [PerformsArms, ih, performsOf_iff, Arm.body]

variable {R : Type} {M : Meaning R} {st : Store R}

/-- The arm that is chosen is one of the arms. -/
theorem Meaning.mem_chosen {v : Value} {arms : List Arm} {s : Statement}
    (h : s ∈ M.chosen v arms st) : ∃ a ∈ arms, s ∈ a.body := by
  unfold chosen at h
  split at h
  case h_1 a ha => exact ⟨a, List.mem_of_find?_eq_some ha, h⟩
  case h_2 =>
      cases hfind : arms.find? fun a => a.label.isNone with
      | none =>
          rw [hfind] at h
          cases h
      | some a =>
          rw [hfind] at h
          exact ⟨a, List.mem_of_find?_eq_some hfind, h⟩

/-- What a statement is taken apart into performs nothing else. -/
theorem Statement.Performs.of_expand {s : Statement} (h : s.Performs P) {items : List Statement}
    (hitems : M.expand st s = some items) : ∀ t ∈ items, t.Performs P := by
  revert h hitems
  fun_cases M.expand st s with
  | case1 => rintro - ⟨⟩
  | case2 => rintro - ⟨⟩
  | case3 items =>
      rintro h ⟨⟩
      rw [Performs] at h
      exact performsOf_iff.mp h
  | case4 condition yes no =>
      rintro h ⟨⟩
      rw [Performs] at h
      cases M.bool condition st with
      | true => exact performsOf_iff.mp h.1
      | false => exact performsOf_iff.mp h.2
  | case5 v arms =>
      rintro h ⟨⟩ t ht
      rw [Performs] at h
      obtain ⟨a, ha, hta⟩ := M.mem_chosen ht
      exact performsArms_iff.mp h a ha t hta
  | case6 condition body =>
      -- A loop is taken apart into a round and the loop itself.
      rintro h ⟨⟩ t ht
      have hbody := h
      rw [Performs] at hbody
      cases hc : M.bool condition st with
      | false => simp [hc] at ht
      | true =>
          simp only [hc, if_true, List.mem_append, List.mem_singleton] at ht
          rcases ht with ht | rfl
          · exact performsOf_iff.mp hbody t ht
          · exact h
  | case7 start condition next body =>
      -- A loop with a step is its start and a loop whose body ends in the step.
      rintro h ⟨⟩ t ht
      rw [Performs] at h
      obtain ⟨hstart, hnext, hbody⟩ := h
      simp only [List.mem_cons, List.not_mem_nil, or_false] at ht
      rcases ht with rfl | rfl
      · exact hstart
      · rw [Performs, performsOf_iff]
        intro u hu
        rcases List.mem_append.mp hu with hu | hu
        · exact performsOf_iff.mp hbody u hu
        · obtain rfl := List.mem_singleton.mp hu
          exact hnext
  | case8 count body =>
      rintro h ⟨⟩ t ht
      rw [Performs] at h
      obtain ⟨copy, hcopy, htcopy⟩ := List.mem_flatten.mp ht
      rw [List.eq_of_mem_replicate hcopy] at htcopy
      exact performsOf_iff.mp h t htcopy
  | case9 =>
      rintro - ⟨⟩ t ⟨⟩
  | case10 state _ =>
      rintro h ⟨⟩ t ht
      obtain rfl := List.mem_singleton.mp ht
      exact h
  | case11 =>
      rintro - ⟨⟩ t ⟨⟩

/-- A statement that is not taken apart is performed itself. -/
theorem Statement.Performs.of_plain {s : Statement} (h : s.Performs P)
    (hs : M.expand st s = none) : P s := by
  revert h hs
  fun_cases M.expand st s <;> intro h hs
  all_goals first
    | exact h
    | cases hs

/-- A plain part of a script is performed itself. -/
theorem Statement.Performs.of_part {s : Statement} {items : List Statement}
    (hs : .plain s ∈ partsOf items) (h : P s) : s.Performs P := by
  rcases plainIn_of_mem_partsOf hs with ⟨command, rfl⟩ | ⟨header, body, rfl, -⟩
  · exact h
  · exact h

/-- **A sequence** comes to perform what its states come to perform, and it clears its flag. -/
theorem Compiled.performs_runner {c : Compiled}
    (hstop : P (.command (c.control.running.assign (.bool false))))
    (hwork : ∀ s ∈ c.flow, ∀ w ∈ s.work, w.statement.Performs P)
    (htail : ∀ s ∈ c.flow, ∀ t ∈ s.tail.statements c.control, t.Performs P) :
    c.runner.Performs P := by
  have harms : PerformsArms P (c.flow.arms c.control) := by
    rw [performsArms_iff]
    intro a ha t ht
    obtain ⟨⟨s, n⟩, hsn, rfl⟩ := List.mem_map.mp ha
    have hs : s ∈ c.flow := List.mem_of_getElem? (List.mk_mem_zipIdx_iff_getElem?.mp hsn)
    rcases List.mem_append.mp ht with ht | ht
    · obtain ⟨w, hw, rfl⟩ := List.mem_map.mp ht
      exact hwork s hs w hw
    · exact htail s hs t ht
  exact ⟨⟨⟨hstop, harms, trivial⟩, trivial⟩, trivial⟩

end Performs

/-! ### Invariants of runs -/

namespace Code

variable {R : Type} {M : Meaning R} {p : Code} {I : Store R → Prop}

/-- A plain statement keeps an invariant of the store. -/
def Sustains (M : Meaning R) (I : Store R → Prop) (s : Statement) : Prop :=
  ∀ st st', I st → M.perform s st = some st' → I st'

/-- The store satisfies an invariant, and all that is left to do and all that is yet to happen keeps
it. -/
structure Config.Safe (M : Meaning R) (I : Store R → Prop) (a : Config R) : Prop where
  store : I a.store
  stack : ∀ index s, .run index s ∈ a.stack → s.Performs (Sustains M I)
  firings : ∀ f ∈ a.firings, ∀ st, I st → I (f.change st)

/-- **A step** keeps an invariant that all reactions keep. -/
theorem step_safe
    (hcode : ∀ cause index s, .run index s ∈ p.reaction cause → s.Performs (Sustains M I))
    {a a' : Config R} {es : List (Happening R)} (h : a.Safe M I)
    (hstep : step M p a = some (es, a')) : a'.Safe M I := by
  obtain ⟨hstore, hstack, hfirings⟩ := h
  revert hstep
  fun_cases step M p a with
  | case1 => rintro ⟨⟩
  | case2 st f firings =>
      rintro ⟨⟩
      exact ⟨hfirings f List.mem_cons_self st hstore, fun index s => hcode f.cause index s,
        fun g hg => hfirings g (List.mem_cons_of_mem _ hg)⟩
  | case3 =>
      rintro ⟨⟩
      exact ⟨hstore, fun index s hs => hstack index s (List.mem_cons_of_mem _ hs), hfirings⟩
  | case4 st index s stack firings items hitems =>
      -- A statement is taken apart, and its parts are left to do.
      rintro ⟨⟩
      refine ⟨hstore, fun i t ht => ?_, hfirings⟩
      rcases List.mem_append.mp ht with ht | ht
      · obtain ⟨u, hu, heq⟩ := List.mem_map.mp ht
        obtain ⟨rfl, rfl⟩ := Item.run.inj heq
        exact (hstack _ _ List.mem_cons_self).of_expand hitems _ hu
      · exact hstack i t (List.mem_cons_of_mem _ ht)
  | case5 st index s stack firings hs st' hp =>
      rintro ⟨⟩
      have hsustains := (hstack _ _ List.mem_cons_self).of_plain hs
      exact ⟨hsustains st st' hstore hp,
        fun i t ht => hstack i t (List.mem_cons_of_mem _ ht), hfirings⟩
  | case6 =>
      rintro ⟨⟩
      exact ⟨hstore, fun _ _ hs => absurd hs List.not_mem_nil,
        fun _ hf => absurd hf List.not_mem_nil⟩

/-- **A run** keeps an invariant that all reactions keep. -/
theorem steps_safe {owned : List String}
    (hcode : ∀ cause index s, .run index s ∈ p.reaction cause → s.Performs (Sustains M I))
    {n : Nat} {a a' : Config R} {es : List (Happening R)} (h : a.Safe M I)
    (hsteps : Steps (outward M p owned) n a es a') : a'.Safe M I := by
  induction hsteps with
  | refl => exact h
  | head hstep _ ih =>
      obtain ⟨x, hx, heq⟩ := Option.map_eq_some_iff.mp hstep
      obtain ⟨-, rfl⟩ := Prod.mk.inj heq
      exact ih (step_safe hcode h hx)

/-- A step adds nothing to what is yet to happen. -/
theorem firings_suffix {a a' : Config R} {es : List (Happening R)}
    (hstep : step M p a = some (es, a')) : a'.firings <:+ a.firings := by
  revert hstep
  fun_cases step M p a <;> rintro ⟨⟩
  · exact List.suffix_cons _ _
  · exact List.suffix_refl _
  · exact List.suffix_refl _
  · exact List.suffix_refl _
  · exact List.nil_suffix

/-- A run adds nothing to what is yet to happen. -/
theorem firings_suffix_of_steps {owned : List String} {n : Nat} {a a' : Config R}
    {es : List (Happening R)} (hsteps : Steps (outward M p owned) n a es a') :
    a'.firings <:+ a.firings := by
  induction hsteps with
  | refl => exact List.suffix_refl _
  | head hstep _ ih =>
      obtain ⟨x, hx, heq⟩ := Option.map_eq_some_iff.mp hstep
      obtain ⟨-, rfl⟩ := Prod.mk.inj heq
      exact ih.trans (firings_suffix hx)

end Code

/-! ### What sequences hold -/

/-- A sequence holds 0 or the number of an event that its script waits for, and its counters hold
integers. -/
structure Compiled.Holds {R : Type} (c : Compiled) (m : Module) (st : Store R) : Prop where
  waits : ∃ awaits, c.Waits m st awaits
  counters : ∀ x ∈ c.counters, ∃ n : Int, st x = .integer n

section Holds

variable {R : Type} {M : Meaning R} {m : Module} {cs : List Compiled} {st st' : Store R}

/-- What a sequence holds depends on few variables. -/
theorem Compiled.Holds.congr {c : Compiled} (h : c.Holds m st)
    (hevent : st' c.control.event.name = st c.control.event.name)
    (hcounters : ∀ x ∈ c.counters, st' x = st x) : c.Holds m st' := by
  obtain ⟨⟨awaits, hwaits⟩, hints⟩ := h
  refine ⟨⟨awaits, hwaits.congr hevent⟩, fun x hx => ?_⟩
  rw [hcounters x hx]
  exact hints x hx

/-- All sequences hold what they may hold. -/
def AllHold (m : Module) (cs : List Compiled) (st : Store R) : Prop :=
  ∀ c ∈ cs, c.Holds m st

/-- Sequences hold what they held before if none of their variables has changed. -/
theorem AllHold.of_same (h : AllHold m cs st) (hsame : ∀ x ∈ ownedBy cs, st' x = st x) :
    AllHold m cs st' := by
  intro c hc
  have hnames (x : String) (hx : x ∈ c.names) : st' x = st x :=
    hsame x (List.mem_flatMap.mpr ⟨c, hc, hx⟩)
  refine (h c hc).congr (hnames _ ?_) fun x hx => hnames x (List.mem_append_right _ hx)
  exact Compiled.mem_names (by simp [SequenceControl.names])

namespace Module.Hosts

variable (h : m.Hosts cs) {c : Compiled} (hc : c ∈ cs)

include h hc

/-- A variable of a sequence may change if the sequence still holds what it may hold. -/
theorem allHold_set {x : String} (hx : x ∈ c.names) (hall : AllHold m cs st) {d : Datum R}
    (hown : c.Holds m (st.set x d)) : AllHold m cs (st.set x d) := by
  intro e he
  by_cases hindex : c.control.index = e.control.index
  · obtain rfl := h.eq_of_index hc he hindex
    exact hown
  · have hforeign := h.foreign hc he hindex hx
    refine (hall e he).congr (st.set_of_ne d ?_) fun y hy => st.set_of_ne d ?_
    · rintro rfl
      exact hforeign (Compiled.mem_names (by simp [SequenceControl.names]))
    · rintro rfl
      exact hforeign (List.mem_append_right _ hy)

/-- A control variable of a sequence other than the number of its event may change. -/
theorem allHold_set_control {x : String} (hx : x ∈ c.control.names)
    (hne : x ≠ c.control.event.name) (hall : AllHold m cs st) (d : Datum R) :
    AllHold m cs (st.set x d) := by
  refine h.allHold_set hc (Compiled.mem_names hx) hall ((hall c hc).congr ?_ fun y hy => ?_)
  · exact st.set_of_ne d hne.symm
  · refine st.set_of_ne d ?_
    rintro rfl
    exact (h.books hc).counter_notMem hy hx

/-- A sequence may hold another number that it may hold. -/
theorem allHold_set_event (awaits : Option String) {d : Datum R} (hall : AllHold m cs st)
    (hwaits : c.Waits m (st.set c.control.event.name d) awaits) :
    AllHold m cs (st.set c.control.event.name d) := by
  have hx : c.control.event.name ∈ c.control.names := by simp [SequenceControl.names]
  refine h.allHold_set hc (Compiled.mem_names hx) hall ⟨⟨awaits, hwaits⟩, fun y hy => ?_⟩
  rw [st.set_of_ne d]
  · exact (hall c hc).counters y hy
  · rintro rfl
    exact (h.books hc).counter_notMem hy hx

/-- A counter may hold another integer. -/
theorem allHold_set_counter {x : String} (hx : x ∈ c.counters) (hall : AllHold m cs st) (n : Int) :
    AllHold m cs (st.set x (.integer n)) := by
  obtain ⟨⟨awaits, hwaits⟩, hints⟩ := hall c hc
  refine h.allHold_set hc (List.mem_append_right _ hx) hall ⟨⟨awaits, hwaits.congr ?_⟩, ?_⟩
  · refine st.set_of_ne _ ?_
    rintro rfl
    exact (h.books hc).counter_notMem hx (by simp [SequenceControl.names])
  · intro y hy
    by_cases hxy : y = x
    · exact ⟨n, by rw [hxy, Store.set_self]⟩
    · rw [st.set_of_ne _ hxy]
      exact hints y hy

end Module.Hosts

/-! ### All runs -/

namespace Module.Hosts

variable (h : m.Hosts cs) (ho : Orderly m.prologue) (hM : M.Lawful)

include h ho

/-- **What is run when something happens**: a driver or a shared block tells sequences to run on,
and then the sequences have their turns. -/
theorem mem_reaction {cause : Cause} {index : Nat} {s : Statement}
    (hs : .run index s ∈ (m.code cs).reaction cause) :
    (index = 0 ∧ ∃ c ∈ cs, ∃ number, s = c.control.resumeOn number) ∨
      ∃ c ∈ cs, index = c.control.index ∧ s = c.runner := by
  rw [Module.reaction_eq, h.respond_eq ho] at hs
  rcases List.mem_append.mp hs with hs | hs
  · obtain ⟨t, ht, heq⟩ := List.mem_map.mp hs
    obtain ⟨rfl, rfl⟩ := Code.Item.run.inj heq
    obtain ⟨r, hr, rfl⟩ := List.mem_map.mp ht
    obtain ⟨c, hc, hcontrol⟩ := h.of_mem_calls hr
    exact .inl ⟨rfl, c, hc, r.2, by rw [hcontrol]⟩
  · obtain ⟨c, hc, hs⟩ := List.mem_flatMap.mp hs
    simp only [List.mem_cons, List.not_mem_nil, or_false, reduceCtorEq, Code.Item.run.injEq] at hs
    exact .inr ⟨c, hc, hs⟩

/-- The work of the states of a sequence is its counting and the plain statements of its script. -/
theorem work_cases {c : Compiled} (hc : c ∈ cs) {s : Sequence.State} (hs : s ∈ c.flow) {w : Work}
    (hw : w ∈ s.work) :
    (∃ command, w = .counting command ∧ Keeps c.counters command) ∨
      ∃ t, w = .placed t ∧ t ∈ plainOf c.script := by
  have hlayout := h.layout c hc _ (agrees_numberIn ho)
  have hmem : w ∈ c.fragment.work := by
    rw [← Fragment.finish_work]
    exact List.mem_flatMap.mpr ⟨s, hs, hw⟩
  cases w with
  | counting command =>
      exact .inl ⟨command, rfl, (hlayout.counting_mem hmem).resolve_left List.not_mem_nil⟩
  | placed t => exact .inr ⟨t, rfl, (hlayout.placed_mem hmem).resolve_left List.not_mem_nil⟩

include hM
omit ho

/-- An assignment to a control variable other than the number of the event sustains what sequences
hold. -/
theorem sustains_control {c : Compiled} (hc : c ∈ cs) {k : Kind} (v : Variable k) (e : Expr k)
    (hv : v.name ∈ c.control.names) (hne : v.name ≠ c.control.event.name) :
    Code.Sustains M (AllHold m cs) (.command (v.assign e)) := by
  intro st st' hall hp
  obtain rfl := Option.some.inj ((hM.assign _ _ _).symm.trans hp)
  exact h.allHold_set_control hc hv hne hall _

/-- A sequence that waits for its timer sustains what sequences hold. -/
theorem sustains_awaitTimer {c : Compiled} (hc : c ∈ cs) :
    Code.Sustains M (AllHold m cs) (Sequence.awaitEvent c.control 0) := by
  intro st st' hall hp
  obtain rfl := Option.some.inj ((hM.assign _ _ _).symm.trans hp)
  refine h.allHold_set_event hc none hall ?_
  rw [Compiled.Waits, Store.set_self, Meaning.value, hM.integer_literal]
  rfl

/-- A sequence that waits for an event of its script sustains what sequences hold. -/
theorem sustains_awaitEvent {c : Compiled} (hc : c ∈ cs) {event : Event}
    (hevent : event ∈ signalsOf c.script) :
    Code.Sustains M (AllHold m cs)
      (Sequence.awaitEvent c.control (numberIn m.prologue event)) := by
  intro st st' hall hp
  obtain rfl := Option.some.inj ((hM.assign _ _ _).symm.trans hp)
  refine h.allHold_set_event hc (some event.text) hall ⟨event, hevent, rfl, ?_⟩
  rw [Store.set_self, Meaning.value, hM.integer_literal]

/-- A sequence that counts sustains what sequences hold. -/
theorem sustains_counting {c : Compiled} (hc : c ∈ cs) {command : Command}
    (hcommand : Keeps c.counters command) :
    Code.Sustains M (AllHold m cs) (.command command) := by
  obtain ⟨x, hx, rfl | rfl⟩ := hcommand
  · intro st st' hall hp
    obtain rfl := Option.some.inj ((hM.assign _ _ _).symm.trans hp)
    rw [Meaning.value, hM.integer_literal]
    exact h.allHold_set_counter hc hx hall 0
  · intro st st' hall hp
    obtain ⟨n, hn⟩ := (hall c hc).counters x hx
    obtain rfl := Option.some.inj ((hM.increment x n st hn).symm.trans hp)
    exact h.allHold_set_counter hc hx hall _

/-- At the start all sequences hold what they may hold. -/
theorem allHold_initial (st : Store R) : AllHold m cs (M.initial m st) := by
  intro c hc
  obtain ⟨-, -, -, hevent⟩ := h.initial_control hM hc st
  refine ⟨⟨none, hevent⟩, fun x hx => ⟨0, ?_⟩⟩
  have hdeclared : Sequence.counterDeclaration x ∈ m.declaredVariables := by
    refine h.declared.subset (List.mem_flatMap.mpr ⟨c, hc, ?_⟩)
    exact List.mem_append_right _ (List.mem_map_of_mem hx)
  refine Meaning.initial_eq hM h.initialised h.nodup hdeclared (fun su => ?_) st
  rw [counterDeclaration, Meaning.value, hM.integer_literal]

/-- A module starts with safe values. -/
theorem safe_start {firings : List (Firing R)}
    (hfirings : ∀ f ∈ firings, f.Apart (ownedBy cs)) (st : Store R) :
    Code.Config.Safe M (AllHold m cs) ⟨M.initial m st, [], firings⟩ :=
  ⟨h.allHold_initial hM st, fun _ _ hs => absurd hs List.not_mem_nil,
    fun f hf su hall => hall.of_same ((hfirings f hf).writes su _ rfl)⟩

include ho

/-- The tail of a state sustains what sequences hold. -/
theorem performs_tail {c : Compiled} (hc : c ∈ cs) {s : Sequence.State} (hs : s ∈ c.flow) :
    ∀ t ∈ s.tail.statements c.control, t.Performs (Code.Sustains M (AllHold m cs)) := by
  obtain ⟨hts, htr, hte, hsr, hse, hre⟩ := c.control.names_ne
  have hgoto (i : Nat) : Code.Sustains M (AllHold m cs) (goto c.control i) :=
    h.sustains_control hM hc c.control.state _ (by simp [SequenceControl.names]) hse
  have hrun : Code.Sustains M (AllHold m cs) (runOn c.control) :=
    h.sustains_control hM hc c.control.running _ (by simp [SequenceControl.names]) hre
  cases htail : s.tail with
  | delay seconds next =>
      have htime : Code.Sustains M (AllHold m cs)
          (.command (c.control.time.assign (Expr.now.add seconds))) :=
        h.sustains_control hM hc c.control.time _ (by simp [SequenceControl.names]) hte
      intro t ht
      simp only [Tail.statements, List.mem_cons, List.not_mem_nil, or_false] at ht
      rcases ht with rfl | rfl | rfl
      · exact h.sustains_awaitTimer hM hc
      · exact hgoto next
      · exact htime
  | signal number next =>
      have hlayout := h.layout c hc _ (agrees_numberIn ho)
      -- The numbers in the tails are those of the signals of the script.
      have hnumber : number ∈ (signalsOf c.script).map (numberIn m.prologue) := by
        rw [← hlayout.signals_eq]
        exact List.mem_filterMap.mpr ⟨s, hs, by rw [htail]; rfl⟩
      obtain ⟨event, hevent, rfl⟩ := List.mem_map.mp hnumber
      intro t ht
      simp only [Tail.statements, List.mem_cons, List.not_mem_nil, or_false] at ht
      rcases ht with rfl | rfl
      · exact h.sustains_awaitEvent hM hc hevent
      · exact hgoto next
  | jump next =>
      intro t ht
      simp only [Tail.statements, List.mem_cons, List.not_mem_nil, or_false] at ht
      rcases ht with rfl | rfl
      · exact hrun
      · exact hgoto next
  | branch condition yes no =>
      intro t ht
      simp only [Tail.statements, List.mem_cons, List.not_mem_nil, or_false] at ht
      rcases ht with rfl | rfl
      · exact hrun
      · exact ⟨⟨hgoto yes, trivial⟩, hgoto no, trivial⟩
  | finish =>
      intro t ht
      simp only [Tail.statements, List.mem_cons, List.not_mem_nil, or_false] at ht
      rw [ht]
      intro st st' _ hp
      -- Nothing is left to be sustained.
      cases (hM.finish st).symm.trans hp

/-- The work of a state sustains what sequences hold. -/
theorem performs_work {c : Compiled} (hc : c ∈ cs)
    (hignores : ∀ q ∈ partsOf c.script, M.Ignores (ownedBy cs) q) {s : Sequence.State}
    (hs : s ∈ c.flow) {w : Work} (hw : w ∈ s.work) :
    w.statement.Performs (Code.Sustains M (AllHold m cs)) := by
  rcases h.work_cases ho hc hs hw with ⟨command, rfl, hkeeps⟩ | ⟨t, rfl, ht⟩
  · exact h.sustains_counting hM hc hkeeps
  · have hplain := mem_plainOf.mp ht
    have hsustains : Code.Sustains M (AllHold m cs) t :=
      fun st st' hall hp => hall.of_same ((hignores _ hplain).1.writes st st' hp)
    exact .of_part hplain hsustains

/-- **All that is run when something happens** sustains what sequences hold. -/
theorem performs_reaction
    (hignores : ∀ c ∈ cs, ∀ q ∈ partsOf c.script, M.Ignores (ownedBy cs) q) (cause : Cause)
    (index : Nat) {s : Statement} (hs : .run index s ∈ (m.code cs).reaction cause) :
    s.Performs (Code.Sustains M (AllHold m cs)) := by
  have hrun (c : Compiled) (hc : c ∈ cs) (b : Bool) :
      Code.Sustains M (AllHold m cs) (.command (c.control.running.assign (.bool b))) :=
    h.sustains_control hM hc c.control.running _ (by simp [SequenceControl.names])
      c.control.names_ne.2.2.2.2.2
  rcases h.mem_reaction ho hs with ⟨-, c, hc, number, rfl⟩ | ⟨c, hc, -, rfl⟩
  · exact ⟨⟨hrun c hc true, trivial⟩, trivial⟩
  · exact Compiled.performs_runner (hrun c hc false)
      (fun s hs w hw => h.performs_work ho hM hc (hignores c hc) hs hw)
      fun s hs => h.performs_tail ho hM hc hs

/-- **In every run** from the initial values, sequences hold what they may hold. -/
theorem holds_of_steps (hignores : ∀ c ∈ cs, ∀ q ∈ partsOf c.script, M.Ignores (ownedBy cs) q)
    {firings : List (Firing R)} (hfirings : ∀ f ∈ firings, f.Apart (ownedBy cs)) {n : Nat}
    {es : List (Happening R)} {a : Code.Config R}
    (hsteps : Steps (Code.outward M (m.code cs) (ownedBy cs)) n
      ⟨M.initial m st, [], firings⟩ es a) :
    AllHold m cs a.store := by
  exact (Code.steps_safe (fun cause index s hs => h.performs_reaction ho hM hignores cause index hs)
    (h.safe_start hM hfirings st) hsteps).store

end Module.Hosts

end Holds

end Stimulus
