import Mathlib.Data.List.Pairwise
import Stimulus.Proofs.Run.Sequencer
import Stimulus.Proofs.Sequence.Sharing

/-!
# What wakes a sequence

When something happens, the block that belongs to it tells some sequences to run on. These are
those that wait for it: the driver of a timer asks for the number 0, which no event has, and the
clauses of a shared block ask for the number of the block.

## Main results

* `Code.steps_calls`: what the statements of drivers and shared blocks do to a store.
* `Compiled.Waits.called_iff`: a sequence is told to run on exactly if it is woken.
* `Compiled.Waits.awaits_eq`: the number that a sequence holds tells for what it waits.
-/

namespace Stimulus

open Machine

/-! ### The variables of hosted sequences -/

/-- The variables of all sequences. -/
def ownedBy (cs : List Compiled) : List String :=
  cs.flatMap (·.names)

namespace Module.Hosts

variable {m : Module} {cs : List Compiled} (h : m.Hosts cs)

include h

/-- The variables of all sequences are different. -/
theorem nodup_owned : (ownedBy cs).Nodup := by
  have hsub := h.declared.map (·.name)
  rw [List.map_flatMap] at hsub
  simp only [Compiled.map_declarations] at hsub
  exact h.nodup.sublist hsub

/-- The variables of a sequence can be relied on. -/
theorem books {c : Compiled} (hc : c ∈ cs) : c.Books (ownedBy cs) :=
  ⟨(List.nodup_flatMap.mp h.nodup_owned).1 c hc,
    fun _ hx => List.mem_flatMap.mpr ⟨c, hc, hx⟩⟩

/-- A variable belongs to one sequence only. -/
theorem foreign {c d : Compiled} (hc : c ∈ cs) (hd : d ∈ cs)
    (hne : c.control.index ≠ d.control.index) {x : String} (hx : x ∈ c.names) : x ∉ d.names := by
  have hpairs := (List.nodup_flatMap.mp h.nodup_owned).2
  have hsymm : Std.Symm (Function.onFun List.Disjoint Compiled.names) :=
    ⟨fun _ _ hdisjoint _ hx hx' => hdisjoint hx' hx⟩
  have hcd : c ≠ d := fun heq => hne (congrArg (·.control.index) heq)
  exact hpairs.forall hc hd hcd hx

/-- Sequences with the same number are the same. -/
theorem eq_of_index {c d : Compiled} (hc : c ∈ cs) (hd : d ∈ cs)
    (hindex : c.control.index = d.control.index) : c = d :=
  List.inj_on_of_nodup_map h.nodup_indices hc hd hindex

/-- The number of the event of a sequence is not what tells a sequence to run on. -/
theorem event_ne_running {c d : Compiled} (hc : c ∈ cs) (hd : d ∈ cs) :
    c.control.event.name ≠ d.control.running.name := by
  by_cases hindex : c.control.index = d.control.index
  · obtain rfl := h.eq_of_index hc hd hindex
    exact c.control.names_ne.2.2.2.2.2.symm
  · intro heq
    refine h.foreign hc hd hindex (x := c.control.event.name) ?_ ?_
    · simp [Compiled.names, SequenceControl.names]
    · simp [heq, Compiled.names, SequenceControl.names]

/-- What tells a sequence to run on tells no other one. -/
theorem eq_of_running {c d : Compiled} (hc : c ∈ cs) (hd : d ∈ cs)
    (heq : c.control.running.name = d.control.running.name) : c = d := by
  by_cases hindex : c.control.index = d.control.index
  · exact h.eq_of_index hc hd hindex
  · refine absurd ?_ (h.foreign hc hd hindex (x := c.control.running.name) ?_)
    · simp [heq, Compiled.names, SequenceControl.names]
    · simp [Compiled.names, SequenceControl.names]

/-- A variable that was declared before all others belongs to no sequence. -/
theorem first_notMem_owned {first : String} {names : List String}
    (hnames : m.declaredVariables.map (·.name) = first :: names)
    (hfirst : first ≠ (⟨1⟩ : SequenceControl).time.name) : first ∉ ownedBy cs := by
  have hnodup := h.nodup
  have hdeclared := h.declared.map (·.name)
  rw [List.map_flatMap] at hdeclared
  simp only [Compiled.map_declarations] at hdeclared
  rw [hnames] at hnodup hdeclared
  rcases List.sublist_cons_iff.mp hdeclared with hsub | ⟨rest, heq, -⟩
  · exact fun hmem => (List.nodup_cons.mp hnodup).1 (hsub.subset hmem)
  · -- The first variable of a sequence is the time of sequence 1.
    have hcontrols := h.controls
    cases cs with
    | nil => cases heq
    | cons c cs =>
        rw [List.map_cons, List.length_cons, List.range'_succ, List.map_cons] at hcontrols
        obtain ⟨hcontrol, -⟩ := List.cons.inj hcontrols
        rw [List.flatMap_cons, Compiled.names, hcontrol] at heq
        exact absurd (List.cons.inj heq).1.symm hfirst

end Module.Hosts

/-- **A module that hosts one sequence** with one counting loop, and that has declared one variable
besides, hosts it with the counter that was declared last. -/
theorem Module.Hosts.eq_singleton {m : Module} {cs : List Compiled} {guard : Expr .bool}
    {script : List Statement} {fragment : String → Sequence.Fragment} {first last : String}
    (h : m.Hosts cs) (ho : Orderly m.prologue) (hsources : cs.map (·.source) = [(guard, script)])
    (hlayout : ∀ {number counters f}, Sequence.Layout number 0 [] script counters f →
      ∃ x, counters = [x] ∧ f = fragment x)
    (hnames : m.declaredVariables.map (·.name)
      = first :: ((⟨1⟩ : SequenceControl).names ++ [last])) :
    cs = [⟨⟨1⟩, guard, script, fragment last, [last]⟩] := by
  obtain ⟨c, rfl, hsource⟩ := List.map_eq_singleton_iff.mp hsources
  have hlaid := h.layout c (List.mem_singleton_self c) _ (Sequence.agrees_numberIn ho)
  have hcontrols := h.controls
  have hdeclared := h.declared.map (·.name)
  have hnodup := h.nodup
  obtain ⟨control, _, _, f, counters⟩ := c
  obtain ⟨rfl, rfl⟩ := Prod.mk.inj hsource
  obtain rfl : control = ⟨1⟩ := by simpa using hcontrols
  obtain ⟨x, rfl, rfl⟩ := hlayout hlaid
  rw [hnames] at hnodup hdeclared
  rw [List.flatMap_singleton, Compiled.map_declarations] at hdeclared
  have hsub : ((⟨1⟩ : SequenceControl).names ++ [x]).Sublist
      (first :: ((⟨1⟩ : SequenceControl).names ++ [last])) := hdeclared
  -- The variables of the sequence are as many as those that were declared after the first one.
  have hlast : ((⟨1⟩ : SequenceControl).names ++ [x])
      = (⟨1⟩ : SequenceControl).names ++ [last] := by
    rcases List.sublist_cons_iff.mp hsub with hsub | ⟨rest, heq, -⟩
    · exact hsub.eq_of_length (by simp)
    · refine absurd ?_ (List.nodup_cons.mp hnodup).1
      obtain ⟨rfl, -⟩ := List.cons.inj heq
      exact List.mem_cons_self
  obtain rfl := List.singleton_inj.mp (List.append_cancel_left hlast)
  rfl

/-! ### Calls -/

/-- The sequences that are asked whether they wait when something happens, and the numbers for which
they are asked. -/
def Module.calls (m : Module) (cs : List Compiled) : Cause → List (SequenceControl × Nat)
  | .timer index => (cs.filter (·.control.index = index)).map fun c => (c.control, 0)
  | .signal text =>
    ((sharedEvents m.prologue).filter (·.event.text = text)).flatMap fun b =>
      b.waiters.map fun index => (⟨index⟩, numberIn m.prologue b.event)

/-- What is run when something happens asks sequences whether they wait. -/
theorem Module.Hosts.respond_eq {m : Module} {cs : List Compiled} (h : m.Hosts cs)
    (ho : Orderly m.prologue) (cause : Cause) :
    (m.code cs).respond cause = (m.calls cs cause).map fun (control, n) => control.resumeOn n := by
  cases cause with
  | timer index =>
      simp only [code, calls, List.map_map, Function.comp_def]
      rw [List.flatMap_def, List.map_congr_left fun c hc => Module.timed_eq (h.drivers.subset
        (List.mem_map_of_mem (List.mem_of_mem_filter hc))), ← List.flatMap_def,
        ← List.map_eq_flatMap]
  | signal text =>
      simp only [code, calls, List.map_flatMap, List.map_map, Function.comp_def]
      rw [List.flatMap_def, List.flatMap_def]
      exact congrArg List.flatten
        (List.map_congr_left fun b hb => ho.asks (List.mem_of_mem_filter hb))

/-- A store in which those sequences have been told to run on that were asked for the number they
hold. -/
structure Told {R : Type} (calls : List (SequenceControl × Nat)) (st st' : Store R) : Prop where
  told : ∀ r ∈ calls, st r.1.event.name = .integer r.2 → st' r.1.running.name = .integer 1
  other : ∀ x, (∀ r ∈ calls, st r.1.event.name = .integer r.2 → x ≠ r.1.running.name) →
    st' x = st x

namespace Code

variable {R : Type} {M : Meaning R} {p : Code} {owned : List String} {st : Store R}
  {stack : List Item} {firings : List (Firing R)}

/-- A sequence that holds an event's number is asked for a number. -/
theorem steps_resumeOn (hM : M.Lawful) (control : SequenceControl)
    (howned : control.running.name ∈ owned) {n : Int}
    (hevent : st control.event.name = .integer n) (number index : Nat) :
    Silently M p owned ⟨st, .run index (control.resumeOn number) :: stack, firings⟩
      ⟨if n = number then st.set control.running.name (.integer 1) else st, stack, firings⟩ := by
  have hcond : M.bool (Expr.comparison .eq rfl control.event.expr (.integer number)) st
      = decide (n = number) := by
    refine (hM.eq _ _ _).trans ?_
    rw [Variable.expr, hM.integer_ident _ _ _ hevent, hM.integer_literal]
  have hone : M.value ⟨_, .bool true⟩ st = .integer 1 := by
    rw [Meaning.value, hM.bool_literal]
    rfl
  by_cases hn : n = number
  · rw [if_pos hn]
    have hexpand : M.expand st (control.resumeOn number)
        = some [.command (control.running.assign (.bool true))] := by
      rw [SequenceControl.resumeOn, Meaning.expand, hcond, decide_eq_true hn, if_pos rfl]
    refine Quietly.silently (.of_step (steps_expand hexpand) (Quietly.silently ?_))
    refine .of_step (steps_assign hM _ _ howned) ?_
    rw [hone]
    exact .refl _
  · rw [if_neg hn]
    have hexpand : M.expand st (control.resumeOn number) = some [] := by
      rw [SequenceControl.resumeOn, Meaning.expand, hcond, decide_eq_false hn]
      rfl
    exact Quietly.silently (.of_step (steps_expand hexpand) (.refl _))

/-- **What drivers and shared blocks do**: they tell sequences to run on that hold the numbers they
are asked for, and nothing else. The induction is on the calls; a call changes no number that a
later one asks for. -/
theorem steps_calls (hM : M.Lawful) (p : Code) (owned : List String) (st : Store R)
    (stack : List Item) (firings : List (Firing R)) (calls : List (SequenceControl × Nat))
    (howned : ∀ r ∈ calls, r.1.running.name ∈ owned)
    (hnumber : ∀ r ∈ calls, ∃ n : Int, st r.1.event.name = .integer n)
    (hne : ∀ r ∈ calls, ∀ s ∈ calls, r.1.event.name ≠ s.1.running.name) :
    ∃ st', Told calls st st' ∧
      Silently M p owned
        ⟨st, calls.map (fun (control, n) => .run 0 (control.resumeOn n)) ++ stack, firings⟩
        ⟨st', stack, firings⟩ := by
  induction calls generalizing st with
  | nil => exact ⟨st, ⟨by simp, fun _ _ => rfl⟩, .refl _⟩
  | cons r calls ih =>
      obtain ⟨control, number⟩ := r
      obtain ⟨n, hn⟩ := hnumber (control, number) List.mem_cons_self
      let st₁ := if n = number then st.set control.running.name (.integer 1) else st
      have hkeep : ∀ x, x ≠ control.running.name → st₁ x = st x := by
        intro x hx
        dsimp only [st₁]
        split
        · exact st.set_of_ne _ hx
        · rfl
      have hevent : ∀ s ∈ calls, st₁ s.1.event.name = st s.1.event.name := fun s hs =>
        hkeep _ (hne s (List.mem_cons_of_mem _ hs) (control, number) List.mem_cons_self)
      obtain ⟨st', htold, hsteps⟩ := ih st₁
        (fun s hs => howned s (List.mem_cons_of_mem _ hs))
        (fun s hs => by
          rw [hevent s hs]
          exact hnumber s (List.mem_cons_of_mem _ hs))
        (fun s hs t ht => hne s (List.mem_cons_of_mem _ hs) t (List.mem_cons_of_mem _ ht))
      refine ⟨st', ⟨?_, ?_⟩, ?_⟩
      · intro s hs hnum
        -- The call that sets the flag of `s` is a later one, or it is the first one.
        by_cases hlater : ∃ t ∈ calls, st t.1.event.name = .integer t.2 ∧
            t.1.running.name = s.1.running.name
        · obtain ⟨t, ht, htnum, hname⟩ := hlater
          rw [← hname]
          exact htold.told t ht (by rw [hevent t ht, htnum])
        · rcases List.mem_cons.mp hs with rfl | hs
          · rw [htold.other]
            · obtain rfl : n = number := by
                rw [hn] at hnum
                injection hnum
              dsimp only [st₁]
              rw [if_pos rfl]
              exact st.set_self ..
            · intro t ht htnum hname
              rw [hevent t ht] at htnum
              exact hlater ⟨t, ht, htnum, hname.symm⟩
          · exact absurd ⟨s, hs, hnum, rfl⟩ hlater
      · intro x hx
        rw [htold.other x fun t ht htnum => hx t (List.mem_cons_of_mem _ ht) (by
          rwa [hevent t ht] at htnum)]
        dsimp only [st₁]
        split
        case isTrue heq =>
            have hnum : st control.event.name = .integer number := by rw [hn, heq]
            exact st.set_of_ne _ (hx (control, number) List.mem_cons_self hnum)
        case isFalse => rfl
      · exact (steps_resumeOn hM control (howned (control, number) List.mem_cons_self) hn
          number 0).trans hsteps

end Code

/-! ### Waiting -/

/-- What a sequence waits for, as its number of the event says: its timer, or one of the events of
its script. -/
def Compiled.Waits {R : Type} (c : Compiled) (m : Module) (st : Store R) : Option String → Prop
  | none => st c.control.event.name = .integer 0
  | some text => ∃ event ∈ signalsOf c.script, event.text = text ∧
    st c.control.event.name = .integer (numberIn m.prologue event)

section Waiting

variable {R : Type} {m : Module} {cs : List Compiled} {c : Compiled} {st : Store R}

/-- A sequence that waits holds a number. -/
theorem Compiled.Waits.exists_number {awaits : Option String} (hw : c.Waits m st awaits) :
    ∃ n : Int, st c.control.event.name = .integer n := by
  cases awaits with
  | none => exact ⟨0, hw⟩
  | some text =>
      obtain ⟨event, -, -, hnum⟩ := hw
      exact ⟨_, hnum⟩

/-- Only sequences of the module are asked. -/
theorem Module.Hosts.of_mem_calls (h : m.Hosts cs) {cause : Cause} {r : SequenceControl × Nat}
    (hr : r ∈ m.calls cs cause) : ∃ c ∈ cs, c.control = r.1 := by
  cases cause with
  | timer index =>
      obtain ⟨c, hc, rfl⟩ := List.mem_map.mp hr
      exact ⟨c, List.mem_of_mem_filter hc, rfl⟩
  | signal text =>
      obtain ⟨b, hb, hr⟩ := List.mem_flatMap.mp hr
      obtain ⟨index, hindex, rfl⟩ := List.mem_map.mp hr
      obtain ⟨c, hc, rfl, -⟩ := (h.mem_waiters (List.mem_of_mem_filter hb)).mp hindex
      exact ⟨c, hc, rfl⟩

/-- The numbers for which a sequence is asked when an event happens: that of the event's block, if
the sequence is listed there. -/
theorem Module.mem_calls_signal {text : String} {n : Nat} {control : SequenceControl} :
    (control, n) ∈ m.calls cs (.signal text) ↔ ∃ b ∈ sharedEvents m.prologue,
      b.event.text = text ∧ control.index ∈ b.waiters ∧ numberIn m.prologue b.event = n := by
  simp only [calls, List.mem_flatMap, List.mem_filter, List.mem_map, decide_eq_true_eq]
  constructor
  · rintro ⟨b, ⟨hb, htext⟩, index, hindex, heq⟩
    obtain ⟨rfl, rfl⟩ := Prod.mk.inj heq
    exact ⟨b, hb, htext, hindex, rfl⟩
  · rintro ⟨b, hb, htext, hindex, rfl⟩
    exact ⟨b, ⟨hb, htext⟩, _, hindex, rfl⟩

/-- The numbers for which a sequence is asked when a timer expires: 0, if the timer is its own. -/
theorem Module.mem_calls_timer (hc : c ∈ cs) {index n : Nat} :
    (c.control, n) ∈ m.calls cs (.timer index) ↔ c.control.index = index ∧ n = 0 := by
  simp only [calls, List.mem_map, List.mem_filter, decide_eq_true_eq]
  constructor
  · rintro ⟨d, ⟨-, rfl⟩, heq⟩
    obtain ⟨hcontrol, rfl⟩ := Prod.mk.inj heq
    exact ⟨by rw [hcontrol], rfl⟩
  · rintro ⟨rfl, rfl⟩
    exact ⟨c, ⟨hc, rfl⟩, rfl⟩

namespace Compiled.Waits

/-- A sequence that holds the number of a block waits for the event of the block. -/
theorem exists_signal (h : m.Hosts cs) (ho : Orderly m.prologue) (hc : c ∈ cs)
    {awaits : Option String} (hw : c.Waits m st awaits) {b : SharedEvent}
    (hb : b ∈ sharedEvents m.prologue)
    (hnum : st c.control.event.name = .integer (numberIn m.prologue b.event)) :
    ∃ event ∈ signalsOf c.script, event.text = b.event.text ∧ awaits = some event.text := by
  cases awaits with
  | none =>
      rw [Compiled.Waits] at hw
      rw [hw, numberIn] at hnum
      injection hnum with hnum
      omega
  | some text =>
      obtain ⟨event, hevent, rfl, hnum'⟩ := hw
      obtain ⟨b', hb', htext⟩ := h.exists_block hc hevent
      rw [hnum', numberIn_congr htext.symm] at hnum
      injection hnum with hnum
      obtain rfl := ho.eq_of_number hb' hb (Int.ofNat_inj.mp hnum)
      exact ⟨event, hevent, htext.symm, rfl⟩

/-- **Who is told to run on.** A sequence is asked for the number it holds exactly if it waits for
what happens. -/
theorem called_iff (h : m.Hosts cs) (ho : Orderly m.prologue) (hc : c ∈ cs)
    {awaits : Option String} (hw : c.Waits m st awaits) (cause : Cause) :
    (∃ n, (c.control, n) ∈ m.calls cs cause ∧ st c.control.event.name = .integer n) ↔
      cause.wakes c.control.index awaits = true := by
  cases cause with
  | timer index =>
      simp only [m.mem_calls_timer hc, Cause.wakes, Bool.and_eq_true, beq_iff_eq,
        Option.isNone_iff_eq_none]
      constructor
      · rintro ⟨n, ⟨rfl, rfl⟩, hzero⟩
        refine ⟨rfl, ?_⟩
        cases awaits with
        | none => rfl
        | some text =>
            obtain ⟨event, -, -, hnum⟩ := hw
            rw [hnum] at hzero
            injection hzero with hzero
            rw [numberIn] at hzero
            omega
      · rintro ⟨rfl, rfl⟩
        exact ⟨0, ⟨rfl, rfl⟩, hw⟩
  | signal text =>
      simp only [Module.mem_calls_signal, Cause.wakes, beq_iff_eq]
      constructor
      · rintro ⟨_, ⟨b, hb, rfl, -, rfl⟩, hnum⟩
        obtain ⟨event, -, htext, rfl⟩ := hw.exists_signal h ho hc hb hnum
        rw [htext]
      · rintro rfl
        obtain ⟨event, hevent, rfl, hnum⟩ := hw
        obtain ⟨b, hb, htext⟩ := h.exists_block hc hevent
        have hwaits : c.waitsFor b.event.text = true :=
          List.any_eq_true.mpr ⟨event, hevent, by simp [htext]⟩
        refine ⟨_, ⟨b, hb, htext, ?_, rfl⟩, ?_⟩
        · exact (h.mem_waiters hb).mpr ⟨c, hc, rfl, hwaits⟩
        · rw [hnum, numberIn_congr htext]

/-- **What a sequence waits for** can be told from the number it holds. -/
theorem awaits_eq (h : m.Hosts cs) (ho : Orderly m.prologue) (hc : c ∈ cs)
    {awaits : Option String} (hw : c.Waits m st awaits) :
    (m.code cs).awaits c.control st = awaits := by
  cases awaits with
  | none =>
      rw [Code.awaits, hw]
      rfl
  | some text =>
      obtain ⟨event, hevent, rfl, hnum⟩ := hw
      obtain ⟨b, hb, htext⟩ := h.exists_block hc hevent
      rw [Code.awaits, hnum, numberIn_congr htext.symm]
      change (sharedEvents m.prologue)[placeOf b.event _]?.map (·.event.text) = some event.text
      rw [ho.getElem?_of_mem hb, Option.map_some, htext]

end Compiled.Waits

/-- **What happens wakes sequences.** After the block that belongs to it has been run, those that
wait for it have been told to run on, and nothing else has changed. -/
theorem Module.Hosts.steps_respond {M : Meaning R} (h : m.Hosts cs) (ho : Orderly m.prologue)
    (hM : M.Lawful) (awaits : Compiled → Option String)
    (hw : ∀ c ∈ cs, c.Waits m st (awaits c)) (cause : Cause)
    (stack : List Code.Item) (firings : List (Firing R)) :
    ∃ st', Code.Silently M (m.code cs) (ownedBy cs)
        ⟨st, ((m.code cs).respond cause).map (.run 0) ++ stack, firings⟩ ⟨st', stack, firings⟩ ∧
      (∀ c ∈ cs, st' c.control.running.name
        = if cause.wakes c.control.index (awaits c) then .integer 1
          else st c.control.running.name) ∧
      ∀ x, (∀ c ∈ cs, x ≠ c.control.running.name) → st' x = st x := by
  obtain ⟨st', htold, hsteps⟩ := Code.steps_calls hM (m.code cs) (ownedBy cs) st stack firings
    (m.calls cs cause)
    (fun r hr => by
      obtain ⟨c, hc, hcontrol⟩ := h.of_mem_calls hr
      rw [← hcontrol]
      exact (h.books hc).running_mem)
    (fun r hr => by
      obtain ⟨c, hc, hcontrol⟩ := h.of_mem_calls hr
      rw [← hcontrol]
      exact (hw c hc).exists_number)
    (fun r hr s hs => by
      obtain ⟨c, hc, hcontrol⟩ := h.of_mem_calls hr
      obtain ⟨d, hd, hcontrol'⟩ := h.of_mem_calls hs
      rw [← hcontrol, ← hcontrol']
      exact h.event_ne_running hc hd)
  refine ⟨st', ?_, fun c hc => ?_, fun x hx => ?_⟩
  · rw [h.respond_eq ho, List.map_map]
    exact hsteps
  · by_cases hcalled : ∃ n, (c.control, n) ∈ m.calls cs cause ∧
        st c.control.event.name = .integer n
    · -- It holds the number it is asked for.
      rw [if_pos (((hw c hc).called_iff h ho hc cause).mp hcalled)]
      obtain ⟨n, hr, hnum⟩ := hcalled
      exact htold.told (c.control, n) hr hnum
    · rw [if_neg fun hwoken => hcalled (((hw c hc).called_iff h ho hc cause).mpr hwoken),
        htold.other]
      intro r hr hnum hname
      obtain ⟨d, hd, hcontrol⟩ := h.of_mem_calls hr
      rw [← hcontrol] at hnum hname
      obtain rfl := h.eq_of_running hc hd hname
      refine hcalled ⟨r.2, ?_, hnum⟩
      rw [hcontrol]
      exact hr
  · refine htold.other x fun r hr _ => ?_
    obtain ⟨c, hc, hcontrol⟩ := h.of_mem_calls hr
    rw [← hcontrol]
    exact hx c hc

end Waiting

end Stimulus
