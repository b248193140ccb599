import Stimulus.Proofs.Run.Stance

/-!
# The states that a sequence visits

The states that a sequence visits in a run follow each other as the tails of the flow say, from
state 0 on. A module that hosts the sequence gives it the setting in which this holds.

## Main definitions

* `Compiled.InState`: a sequence stands at a state.
* `Compiled.visits`: the stores in which a sequence visits its states.
* `Compiled.Chained`: visits in a row.
* `Compiled.Foreign`: what others perform.

## Main results

* `Compiled.Stance.chained`: visits follow each other in every run from a stance on.
* `Module.Hosts.visits_chained`: visits follow each other in every run of a module, from state 0 on.
-/

namespace Stimulus

open Machine Sequence

/-! ### Integers in stores -/

/-- The integer that a variable holds, if it holds one. -/
def Datum.integer? {R : Type} : Datum R → Option Int
  | .real _ => none
  | .integer n => some n

/-- A variable that holds an integer holds it. -/
theorem Datum.eq_of_integer? {R : Type} {d : Datum R} {n : Int} (h : d.integer? = some n) :
    d = .integer n := by
  cases d with
  | real x => cases h
  | integer k => exact congrArg _ (Option.some.inj h)

namespace Compiled

variable {R : Type} {c : Compiled} {M : Meaning R} {p : Code} {I : Store R → Prop}
  {P : Statement → Prop} {st : Store R} {visited : Option (Store R)} {a a' : Code.Config R}
  {es : List (Happening R)}

/-- A sequence stands at a state. -/
def InState (c : Compiled) (i : Nat) (st : Store R) : Prop :=
  st c.control.state.name = .integer i

/-- A sequence stands at one state. -/
theorem InState.inj {i j : Nat} (hi : c.InState i st) (hj : c.InState j st) : i = j := by
  have heq : (Datum.integer i : Datum R) = .integer j := hi.symm.trans hj
  injection heq with heq
  exact Int.ofNat_inj.mp heq

/-- The stores in which a sequence visits states in the first steps of a run. -/
def visits (c : Compiled) (M : Meaning R) (p : Code) (n : Nat) (a : Code.Config R) :
    List (Store R) :=
  (Machine.trace (Code.step M p) n a).filterMap c.visit?

/-! ### Runs -/

/-- Visits in a row: the first one follows the last visit before, if there was one, and otherwise
it is in state 0. -/
def Chained (c : Compiled) (M : Meaning R) : Option (Store R) → List (Store R) → Prop
  | _, [] => True
  | visited, st :: rest =>
    (∃ next : Nat, st c.control.state.name = .integer next ∧ c.Heads M next st visited) ∧
      c.Chained M (some st) rest

/-- Nothing happens any more after the simulation has ended. -/
theorem Ended.trace (h : Ended a) (n : Nat) : Machine.trace (Code.step M p) n a = [a] := by
  obtain ⟨st, stack, firings⟩ := a
  obtain ⟨rfl, rfl⟩ : stack = [] ∧ firings = [] := h
  cases n <;> rfl

/-- After the simulation has ended no state is visited. -/
theorem Ended.visits (h : Ended a) (n : Nat) : c.visits M p n a = [] := by
  rw [Compiled.visits, h.trace, List.filterMap_cons, visit?, h.1]
  rfl

/-- What the first state of a run is, and what comes after it. -/
theorem trace_cases (n : Nat) (a : Code.Config R) :
    Machine.trace (Code.step M p) n a = [a] ∨
      ∃ (k : Nat) (es : List (Happening R)) (a' : Code.Config R), n = k + 1 ∧
        Code.step M p a = some (es, a') ∧
        Machine.trace (Code.step M p) n a = a :: Machine.trace (Code.step M p) k a' := by
  cases n with
  | zero => exact .inl rfl
  | succ k =>
      rw [Machine.trace]
      cases hstep : Code.step M p a with
      | none => exact .inl rfl
      | some x => exact .inr ⟨k, x.1, x.2, rfl, rfl, rfl⟩

/-- **Visits follow each other** in every run from a stance on. The induction is on the steps of the
run, and the stance carries what the next visit has to do with the last one. -/
theorem Stance.chained (hc : c.Setting M p I P) (hsafe : a.Safe M I)
    (h : c.Stance M P visited a) (n : Nat) :
    c.Chained M visited (c.visits M p n a) := by
  induction n using Nat.strongRecOn generalizing visited a with
  | ind n ih =>
      obtain ⟨rest, htrace, hrest⟩ : ∃ rest, Machine.trace (Code.step M p) n a = a :: rest ∧
          c.Chained M ((c.visit? a).or visited) (rest.filterMap c.visit?) := by
        rcases trace_cases n a with htrace | ⟨k, es, a', rfl, hstep, htrace⟩
        · exact ⟨[], htrace, trivial⟩
        · refine ⟨_, htrace, ?_⟩
          rcases h.step hc hsafe hstep with hended | hstance
          · rw [show List.filterMap c.visit? (Machine.trace (Code.step M p) k a') = [] from
              hended.visits k]
            trivial
          · exact ih k (Nat.lt_succ_self k) (Code.step_safe hc.sustains hsafe hstep) hstance
      rw [visits, htrace]
      rcases h.visit?_eq hc with hnone | ⟨hsome, hheads⟩
      · rw [hnone, Option.none_or] at hrest
        rwa [List.filterMap_cons_none hnone]
      · rw [hsome, Option.some_or] at hrest
        rw [List.filterMap_cons_some hsome]
        exact ⟨hheads, hrest⟩

end Compiled

/-! ### Modules -/

/-- What others perform while a sequence of a module has its turns: assignments that leave its
bearings alone, their own counting and the plain statements of their scripts. -/
inductive Compiled.Foreign (cs : List Compiled) (c : Compiled) : Statement → Prop
  | finish : Foreign cs c (.command .finish)
  | assign {x : String} (v : Value) : x ∉ c.bearings → Foreign cs c (.command (.assign x v))
  | counting {d : Compiled} {command : Command} : d ∈ cs → d.control.index ≠ c.control.index →
      Keeps d.counters command → Foreign cs c (.command command)
  | placed {d : Compiled} {s : Statement} : d ∈ cs → d.control.index ≠ c.control.index →
      s ∈ plainOf d.script → Foreign cs c s

/-- The bearings of a sequence are among its variables. -/
theorem Compiled.bearings_subset (c : Compiled) : c.bearings ⊆ c.names := by
  intro x hx
  rcases List.mem_cons.mp hx with rfl | hx
  · exact mem_names (by simp [SequenceControl.names])
  · exact List.mem_append_right _ hx

/-- The tails of a flow come to perform assignments to control variables and the end of the
simulation. -/
theorem Sequence.Tail.performs {P : Statement → Prop} {control : SequenceControl}
    (hcontrol : ∀ {k : Kind} (v : Variable k) (e : Expr k), v.name ∈ control.names →
      P (.command (v.assign e)))
    (hfinish : P (.command .finish)) (tail : Tail) :
    ∀ t ∈ tail.statements control, t.Performs P := by
  have hgoto (i : Nat) : P (goto control i) :=
    hcontrol control.state _ (by simp [SequenceControl.names])
  have hrun : P (runOn control) :=
    hcontrol control.running _ (by simp [SequenceControl.names])
  have hawait (n : Nat) : P (awaitEvent control n) :=
    hcontrol control.event _ (by simp [SequenceControl.names])
  rw [← performsOf_iff]
  cases tail with
  | delay seconds next =>
      exact ⟨hawait 0, hgoto next, hcontrol control.time _ (by simp [SequenceControl.names]),
        trivial⟩
  | signal number next => exact ⟨hawait number, hgoto next, trivial⟩
  | jump next => exact ⟨hrun, hgoto next, trivial⟩
  | branch condition yes no =>
      exact ⟨hrun, ⟨⟨hgoto yes, trivial⟩, hgoto no, trivial⟩, trivial⟩
  | finish => exact ⟨hfinish, trivial⟩

namespace Module.Hosts

variable {R : Type} {M : Meaning R} {m : Module} {cs : List Compiled} {c : Compiled}
  (h : m.Hosts cs) (ho : Orderly m.prologue)

include h

/-- No sequence has the number 0. -/
theorem index_ne_zero {d : Compiled} (hd : d ∈ cs) : 0 ≠ d.control.index := by
  intro hzero
  have hmem : d.control.index ∈ cs.map (·.control.index) := List.mem_map_of_mem hd
  rw [h.indices, ← hzero] at hmem
  simp at hmem

/-- A variable of another sequence is none of the bearings of a sequence. -/
theorem notMem_bearings {d : Compiled} (hc : c ∈ cs) (hd : d ∈ cs)
    (hne : d.control.index ≠ c.control.index) {x : String} (hx : x ∈ d.names) :
    x ∉ c.bearings :=
  fun hbearing => h.foreign hd hc hne hx (c.bearings_subset hbearing)

/-- **What others perform** leaves the bearings of a sequence alone. -/
theorem spares_of_foreign (hM : M.Lawful) (hc : c ∈ cs)
    (hignores : ∀ d ∈ cs, ∀ q ∈ partsOf d.script, M.Ignores (ownedBy cs) q) {s : Statement}
    (hs : c.Foreign cs s) : c.Spares M (AllHold m cs) s := by
  intro st st' hall hperform x hx
  cases hs with
  | finish => cases (hM.finish st).symm.trans hperform
  | @assign y v hy =>
      obtain rfl := Option.some.inj ((hM.assign _ _ _).symm.trans hperform)
      refine st.set_of_ne _ ?_
      rintro rfl
      exact hy hx
  | @counting d command hd hne hkeeps =>
      obtain ⟨y, hy, hcommand⟩ := hkeeps
      have hxy : x ≠ y := by
        rintro rfl
        exact h.notMem_bearings hc hd hne (List.mem_append_right _ hy) hx
      rcases hcommand with rfl | rfl
      · obtain rfl := Option.some.inj ((hM.assign _ _ _).symm.trans hperform)
        exact st.set_of_ne _ hxy
      · obtain ⟨n, hn⟩ := (hall d hd).counters y hy
        obtain rfl := Option.some.inj ((hM.increment y n st hn).symm.trans hperform)
        exact st.set_of_ne _ hxy
  | @placed d s hd hne hs =>
      have howned : x ∈ ownedBy cs := List.mem_flatMap.mpr ⟨c, hc, c.bearings_subset hx⟩
      exact (hignores d hd _ (mem_plainOf.mp hs)).1.writes st st' hperform x howned

include ho

/-- The others come to perform nothing else. -/
theorem performs_foreign {d : Compiled} (hc : c ∈ cs) (hd : d ∈ cs)
    (hne : d.control.index ≠ c.control.index) : d.runner.Performs (c.Foreign cs) := by
  have hcontrol {k : Kind} (v : Variable k) (e : Expr k) (hv : v.name ∈ d.control.names) :
      c.Foreign cs (.command (v.assign e)) :=
    .assign _ (h.notMem_bearings hc hd hne (Compiled.mem_names hv))
  refine Compiled.performs_runner (hcontrol _ _ (by simp [SequenceControl.names]))
    (fun s hs w hw => ?_) fun s _ => s.tail.performs hcontrol .finish
  rcases h.work_cases ho hd hs hw with ⟨command, rfl, hkeeps⟩ | ⟨t, rfl, ht⟩
  · exact .counting hd hne hkeeps
  · exact .of_part (mem_plainOf.mp ht) (.placed hd hne ht)

/-- All that is run when something happens is a turn of the sequence, or others perform it. -/
theorem aside_reaction (hc : c ∈ cs) (cause : Cause) :
    c.Aside (c.Foreign cs) ((m.code cs).reaction cause) := by
  intro index s hs
  rcases h.mem_reaction ho hs with ⟨rfl, d, hd, number, rfl⟩ | ⟨d, hd, rfl, rfl⟩
  · -- A sequence is told to run on, maybe the sequence itself.
    have hrunning : d.control.running.name ∉ c.bearings := by
      by_cases hindex : d.control.index = c.control.index
      · obtain rfl := h.eq_of_index hd hc hindex
        obtain ⟨-, -, -, hne, -, -⟩ := d.control.names_ne
        intro hmem
        rcases List.mem_cons.mp hmem with heq | hmem
        · exact hne heq.symm
        · exact (h.books hd).counter_notMem hmem (by simp [SequenceControl.names])
      · exact h.notMem_bearings hc hd hindex (Compiled.mem_names (by simp [SequenceControl.names]))
    exact .inr ⟨h.index_ne_zero hc, ⟨.assign _ hrunning, trivial⟩, trivial⟩
  · by_cases hindex : d.control.index = c.control.index
    · obtain rfl := h.eq_of_index hd hc hindex
      exact .inl ⟨rfl, rfl⟩
    · exact .inr ⟨hindex, h.performs_foreign ho hc hd hindex⟩

/-- **A module gives its sequences a setting**, if the scripts leave the variables of the sequencer
alone. -/
theorem setting (hM : M.Lawful) (hc : c ∈ cs)
    (hignores : ∀ d ∈ cs, ∀ q ∈ partsOf d.script, M.Ignores (ownedBy cs) q) :
    c.Setting M (m.code cs) (AllHold m cs) (c.Foreign cs) where
  lawful := hM
  nodup := (h.books hc).nodup
  complete := (h.layout c hc _ (agrees_numberIn ho)).complete
  placed s hs t ht := by
    rcases h.work_cases ho hc hs ht with ⟨_, heq, -⟩ | ⟨_, heq, hmem⟩
    · cases heq
    cases heq
    have hpart := mem_plainOf.mp hmem
    refine ⟨fun st => ?_, fun st st' _ hperform x hx => ?_⟩
    · rcases plainIn_of_mem_partsOf hpart with ⟨_, rfl⟩ | ⟨_, _, rfl, -⟩
      · rfl
      · rfl
    · have howned : x ∈ ownedBy cs := List.mem_flatMap.mpr ⟨c, hc, c.bearings_subset hx⟩
      exact (hignores c hc _ hpart).1.writes st st' hperform x howned
  counting s hs command hcommand := by
    rcases h.work_cases ho hc hs hcommand with ⟨_, heq, hkeeps⟩ | ⟨_, heq, -⟩
    · cases heq
      exact hkeeps
    · cases heq
  integers st hall x hx := (hall c hc).counters x hx
  sustains cause index s hs := h.performs_reaction ho hM hignores cause index hs
  reaction cause := h.aside_reaction ho hc cause
  spares s hs := h.spares_of_foreign hM hc hignores hs

/-- A sequence of a module starts in front of its state 0. -/
theorem stance_start (hM : M.Lawful) (hc : c ∈ cs) {firings : List (Firing R)}
    (hfirings : ∀ f ∈ firings, f.Apart (ownedBy cs)) (st : Store R) :
    c.Stance M (c.Foreign cs) none ⟨M.initial m st, [], firings⟩ := by
  obtain ⟨-, hstate, -⟩ := h.initial_control hM hc st
  have hcomplete : c.flow.Complete := (h.layout c hc _ (agrees_numberIn ho)).complete
  have hlength : 0 < c.flow.length :=
    Nat.zero_lt_of_lt (List.getElem?_eq_some_iff.mp hcomplete.finish).1
  have haround : c.Around (c.Foreign cs) [] firings := by
    refine ⟨fun _ _ hs => absurd hs List.not_mem_nil, fun f hf su x hx => ?_⟩
    have howned : x ∈ ownedBy cs := List.mem_flatMap.mpr ⟨c, hc, c.bearings_subset hx⟩
    exact (hfirings f hf).writes su _ rfl x howned
  exact .idle .away hstate hlength rfl haround

/-- **Visits follow each other** in every run of a module, from state 0 on. -/
theorem visits_chained (hM : M.Lawful) (hc : c ∈ cs)
    (hignores : ∀ d ∈ cs, ∀ q ∈ partsOf d.script, M.Ignores (ownedBy cs) q)
    {firings : List (Firing R)} (hfirings : ∀ f ∈ firings, f.Apart (ownedBy cs)) (st : Store R)
    (n : Nat) :
    c.Chained M none (c.visits M (m.code cs) n ⟨M.initial m st, [], firings⟩) :=
  (h.stance_start ho hM hc hfirings st).chained (h.setting ho hM hc hignores)
    (h.safe_start hM hfirings st) n

end Module.Hosts

end Stimulus
