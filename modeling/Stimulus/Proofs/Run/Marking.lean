import Stimulus.Proofs.Run.Toggles
import Stimulus.Proofs.Run.Visits

/-!
# Marks and crossings

The measurements of a marker number the marks in the order in which their labels were recorded, and
the crossings of the marker's output in the order in which a run toggles it. The two agree as far as
the marks stand outside of loops and conditionals: the `n`-th toggle of a run is that of mark `n` if
no mark up to this one stands in a loop or a conditional. A mark in a loop may be performed more
than once, and one in a conditional not at all, and then the numbers of the marks behind it are not
those of their crossings.

## Main definitions

* `Code.Config.toggles`: the machine is about to toggle a variable.
* `Compiled.AtToggle`: the machine is about to perform a certain toggle of a script.
* `Compiled.Counted`: how many toggles a run has performed and where the sequence stands.

## Main results

* `Compiled.Counted.step`: a step keeps the count.
* `Compiled.Stance.nth_toggle`: the toggles of a run are those of the script, one after the other.
* `Module.marks_located`: this for marks and their measurements.
-/

namespace Stimulus

open Machine Sequence

/-- The machine is about to toggle a variable. -/
def Code.Config.toggles {R : Type} (x : String) (a : Code.Config R) : Bool :=
  match a.stack with
  | .run _ s :: _ => s.toggles x
  | _ => false

/-- A statement that toggles a variable is the command that does so. -/
theorem Statement.eq_of_toggles {s : Statement} {x : String} (h : s.toggles x = true) :
    s = .command (.toggle x) := by
  unfold toggles Command.toggles at h
  split at h
  case h_1 c =>
      split at h
      case h_1 y => rw [of_decide_eq_true h]
      case h_2 => cases h
  case h_2 => cases h

namespace Compiled

variable {R : Type} {c : Compiled} {M : Meaning R} {p : Code} {I : Store R → Prop}
  {P : Statement → Prop} {st : Store R} {visited : Option (Store R)} {under : List Code.Item}
  {firings : List (Firing R)} {a a' : Code.Config R} {es : List (Happening R)} {x : String}

/-! ### Toggles on the stack -/

/-- An item is a toggle of a variable that a sequence is to perform. -/
def toggling (c : Compiled) (x : String) : Code.Item → Bool
  | .run index s => index == c.control.index && s.toggles x
  | .rest _ => false

/-- How many toggles of a variable a sequence is still to perform in the state where it stands. -/
def due (c : Compiled) (x : String) (a : Code.Config R) : Nat :=
  a.stack.countP (c.toggling x)

/-- The toggles among statements of a sequence and below them. -/
theorem countP_onto (items : List Statement) (under : List Code.Item) :
    (c.onto items under).countP (c.toggling x)
      = items.countP (Statement.toggles x) + under.countP (c.toggling x) := by
  rw [onto, List.countP_append, List.countP_map]
  congr 2
  funext s
  simp [toggling]

/-- What is aside holds no toggle of a sequence. -/
theorem Aside.countP (h : c.Aside P under) : under.countP (c.toggling x) = 0 := by
  rw [List.countP_eq_zero]
  rintro (⟨index, s⟩ | control) hmem
  · rcases h index s hmem with ⟨-, rfl⟩ | ⟨hne, -⟩
    · simp [toggling, runner, Sequence.runner, Statement.toggles]
    · simp [toggling, hne]
  · simp [toggling]

/-- The tail of a state holds no toggle. -/
theorem countP_tail (control : SequenceControl) (flow : Flow) (tail : Tail) :
    (tail.statements control ++ [loop control flow]).countP (Statement.toggles x) = 0 := by
  cases tail <;> rfl

/-- The toggles among the work of a state. -/
theorem Setting.countP_work (hc : c.Setting M p I P) {s : State} (hs : s ∈ c.flow)
    {ws : List Work} (hws : ws ⊆ s.work) :
    (ws.map (·.statement)).countP (Statement.toggles x) = slots x ws := by
  rw [List.countP_map, slots]
  refine List.countP_congr fun w hw => ?_
  cases w with
  | placed t => exact Iff.rfl
  | counting command =>
      obtain ⟨y, -, rfl | rfl⟩ := hc.counting s hs command (hws hw)
      · exact Iff.rfl
      · exact Iff.rfl

/-- The statement on top is the first one of those of a sequence. -/
theorem onto_eq_cons {t s : Statement} {items : List Statement} {index : Nat}
    {stack : List Code.Item} (h : c.onto (t :: items) under = .run index s :: stack) :
    index = c.control.index ∧ s = t := by
  injection h with h
  injection h with hindex hs
  exact ⟨hindex.symm, hs.symm⟩

/-- **What can be on top.** If it is a statement of the sequence, then the sequence is about to
visit a state, or the statement is taken apart into statements without toggles, if it is taken
apart. -/
theorem Stance.top (hc : c.Setting M p I P) (h : c.Stance M P visited a) {index : Nat}
    {s : Statement} {stack : List Code.Item} (hstack : a.stack = .run index s :: stack) :
    (index ≠ c.control.index ∧ s.Performs P) ∨ (index = c.control.index ∧
      ((c.visit? a).isSome ∨ ∀ items, M.expand a.store s = some items →
        items.countP (Statement.toggles x) = 0)) := by
  cases h with
  | @idle _ top st under firings next htop hstate hnext hheads haround =>
      cases htop with
      | away =>
          have hunder : under = .run index s :: stack := hstack
          have hmem : .run index s ∈ under := by
            rw [hunder]
            exact List.mem_cons_self
          rcases haround.aside index s hmem with ⟨hindex, rfl⟩ | hother
          · refine .inr ⟨hindex, .inr fun items hitems => ?_⟩
            obtain rfl := Option.some.inj hitems
            cases M.bool c.guard st <;> rfl
          · exact .inl hother
      | again =>
          obtain ⟨hindex, rfl⟩ := onto_eq_cons hstack
          refine .inr ⟨hindex, .inr fun items hitems => ?_⟩
          obtain rfl := Option.some.inj hitems
          cases M.bool c.control.running.expr st <;> rfl
      | choosing =>
          obtain ⟨hindex, rfl⟩ := onto_eq_cons hstack
          exact .inr ⟨hindex, .inl (by rw [visit?, onto]; simp [select])⟩
      | stopping | timing =>
          obtain ⟨hindex, rfl⟩ := onto_eq_cons hstack
          refine .inr ⟨hindex, .inr fun items hitems => ?_⟩
          cases hitems
  | @working seen st under firings i done ws tail hflow hseen hstate hcounters hsame haround =>
      refine .inr ?_
      cases ws with
      | nil =>
          cases tail
          all_goals
            obtain ⟨hindex, rfl⟩ := onto_eq_cons hstack
            refine ⟨hindex, .inr fun items hitems => ?_⟩
            cases hitems
      | cons w ws =>
          obtain ⟨hindex, rfl⟩ := onto_eq_cons hstack
          refine ⟨hindex, .inr fun items hitems => ?_⟩
          cases w with
          | placed t =>
              obtain ⟨hplain, -⟩ := hc.placed _ (List.mem_of_getElem? hflow) t (by simp)
              cases (hplain st).symm.trans hitems
          | counting command => cases hitems
  | @deciding seen st under firings i work condition yes no hflow hseen hcounters hset haround =>
      obtain ⟨hindex, rfl⟩ := onto_eq_cons hstack
      refine .inr ⟨hindex, .inr fun items hitems => ?_⟩
      obtain rfl := Option.some.inj hitems
      cases M.bool condition st <;> rfl
  | going due hnext hheads haround =>
      obtain ⟨hindex, rfl⟩ := onto_eq_cons hstack
      refine .inr ⟨hindex, .inr fun items hitems => ?_⟩
      cases hitems

/-- **A step that is no visit** performs a toggle if one is on top, and no other. -/
theorem Stance.due_step (hc : c.Setting M p I P) (hP : ¬ P (.command (.toggle x)))
    (h : c.Stance M P visited a) (hvisit : c.visit? a = none)
    (hstep : Code.step M p a = some (es, a')) :
    Ended a' ∨ c.due x a = c.due x a' + (if a.toggles x then 1 else 0) := by
  have htop {index : Nat} {s : Statement} {stack : List Code.Item}
      (hstack : a.stack = .run index s :: stack) := h.top (x := x) hc hstack
  obtain ⟨st, stack, firings⟩ := a
  match stack, firings with
  | [], [] => cases hstep
  | [], f :: firings =>
      obtain ⟨-, rfl⟩ := Prod.mk.inj (Option.some.inj hstep)
      exact .inr (hc.reaction f.cause).countP.symm
  | .rest control :: stack, firings =>
      obtain ⟨-, rfl⟩ := Prod.mk.inj (Option.some.inj hstep)
      exact .inr (by simp [due, toggling, Code.Config.toggles])
  | .run index s :: stack, firings =>
      have htoggles : Code.Config.toggles x ⟨st, .run index s :: stack, firings⟩ = s.toggles x :=
        rfl
      have hdue : c.due x ⟨st, .run index s :: stack, firings⟩
          = stack.countP (c.toggling x)
            + if index = c.control.index ∧ s.toggles x then 1 else 0 := by
        simp [due, toggling, List.countP_cons]
      rw [htoggles, hdue]
      cases hexpand : M.expand st s with
      | none =>
          cases hperform : M.perform s st with
          | none =>
              rw [Code.step_end hexpand hperform] at hstep
              obtain ⟨-, rfl⟩ := Prod.mk.inj (Option.some.inj hstep)
              exact .inl ⟨rfl, rfl⟩
          | some st' =>
              rw [Code.step_perform hexpand hperform] at hstep
              obtain ⟨-, rfl⟩ := Prod.mk.inj (Option.some.inj hstep)
              refine .inr ?_
              rcases htop rfl with ⟨hindex, hs⟩ | ⟨hindex, -⟩
              · -- Nobody else toggles the variable.
                have hno : s.toggles x = false := by
                  by_contra hyes
                  rw [Bool.not_eq_false] at hyes
                  obtain rfl := Statement.eq_of_toggles hyes
                  exact hP hs
                simp [due, hno]
              · simp [due, hindex]
      | some items =>
          rw [Code.step_expand hexpand] at hstep
          obtain ⟨-, rfl⟩ := Prod.mk.inj (Option.some.inj hstep)
          have hno : s.toggles x = false := by
            by_contra hyes
            rw [Bool.not_eq_false] at hyes
            obtain rfl := Statement.eq_of_toggles hyes
            cases hexpand
          have hitems : (items.map (Code.Item.run index)).countP (c.toggling x) = 0 := by
            rcases htop rfl with ⟨hindex, -⟩ | ⟨hindex, hvisits | hitems⟩
            · simp [List.countP_map, toggling, hindex, Function.comp_def]
            · rw [hvisit] at hvisits
              cases hvisits
            · rw [← hitems items hexpand, List.countP_map]
              congr 1
              funext t
              simp [toggling, hindex]
          simp [due, hno, List.countP_append, hitems]

/-- A sequence that visits a state is about to choose its arm. -/
theorem Stance.of_visit (hc : c.Setting M p I P) (h : c.Stance M P visited a)
    (hvisit : c.visit? a = some st) :
    ∃ (under : List Code.Item) (firings : List (Firing R)) (next : Nat),
      a = ⟨st, c.onto [c.select, loop c.control c.flow] under, firings⟩ ∧
        c.InState next st ∧ next < c.flow.length ∧
        c.Heads M next st visited ∧ c.Aside P under := by
  cases h with
  | @idle _ top su under firings next htop hstate hnext hheads haround =>
      cases htop with
      | away => cases hvisit.symm.trans haround.aside.visit?
      | choosing =>
          have hsame : c.visit? ⟨su, c.onto [c.select, loop c.control c.flow] under, firings⟩
              = some su := if_pos rfl
          obtain rfl := Option.some.inj (hsame.symm.trans hvisit)
          exact ⟨under, firings, next, rfl, hstate, hnext, hheads, haround.aside⟩
      | _ => cases hvisit
  | working hflow => cases hvisit.symm.trans (hc.visit?_working hflow)
  | deciding => cases hvisit
  | going => cases hvisit

/-- **A visit** puts the toggles of the state on the stack, where there were none. -/
theorem Stance.due_visit (hc : c.Setting M p I P) (h : c.Stance M P visited a)
    (hvisit : c.visit? a = some st) :
    ∃ (i : Nat) (s : State), c.InState i st ∧ c.flow[i]? = some s ∧
      c.Heads M i st visited ∧ a.toggles x = false ∧ c.due x a = 0 ∧
      ∀ {es : List (Happening R)} {a' : Code.Config R}, Code.step M p a = some (es, a') →
        c.due x a' = slots x s.work := by
  obtain ⟨under, firings, next, rfl, hstate, hnext, hheads, haside⟩ := h.of_visit hc hvisit
  have hflow : c.flow[next]? = some c.flow[next] := List.getElem?_eq_getElem hnext
  have hselect : M.expand st c.select = some (c.flow[next].statements c.control) :=
    congrArg some (Code.chosen_arms hc.lawful c.control hstate hflow)
  have hunder : under.countP (c.toggling x) = 0 := haside.countP
  refine ⟨next, _, hstate, hflow, hheads, rfl, ?_, fun hstep => ?_⟩
  · rw [due, countP_onto, hunder]
    rfl
  · rw [onto, List.map_cons, List.cons_append, Code.step_expand hselect] at hstep
    obtain ⟨-, rfl⟩ := Prod.mk.inj (Option.some.inj hstep)
    have hstack : (c.flow[next].statements c.control).map (Code.Item.run c.control.index)
        ++ c.onto [loop c.control c.flow] under
        = c.onto (c.flow[next].work.map (·.statement)
          ++ (c.flow[next].tail.statements c.control ++ [loop c.control c.flow])) under := by
      simp [onto, State.statements]
    have hdue : c.due x ⟨st, (c.flow[next].statements c.control).map
        (Code.Item.run c.control.index) ++ c.onto [loop c.control c.flow] under, firings⟩
        = slots x c.flow[next].work := by
      rw [due, hstack, countP_onto, List.countP_append, countP_tail,
        hc.countP_work (List.mem_of_getElem? hflow) (List.Subset.refl _), hunder, Nat.add_zero]
    exact hdue

/-! ### Counting toggles -/

/-- **How many toggles a run has performed** up to where the sequence stands, if only some of them
count: as many as stand before that place in the flow. In the state that was visited last some
toggles may still be due. -/
def Counted (c : Compiled) (x : String) (steady performed : Nat) (visited : Option (Store R))
    (a : Code.Config R) : Prop :=
  ∃ place, min performed steady = min place steady ∧
    match visited with
    | none => place = 0 ∧ c.due x a = 0
    | some seen => ∃ i : Nat, c.InState i seen ∧
        place + c.due x a = ahead x c.flow (i + 1)

/-- **From a state to the next one** no steady toggle is passed. So when a state is visited, all
steady toggles before it have been performed, and no others. -/
theorem Counted.of_visit {steady performed i : Nat}
    (hpasses : ∀ i j, c.flow.Leads i j →
      min (ahead x c.flow j) steady = min (ahead x c.flow (i + 1)) steady)
    (hcounted : c.Counted x steady performed visited a) (hdue : c.due x a = 0)
    (hheads : c.Heads M i st visited) :
    min performed steady = min (ahead x c.flow i) steady := by
  obtain ⟨place, hmin, hplace⟩ := hcounted
  rw [hmin]
  cases visited with
  | none =>
      obtain rfl : i = 0 := hheads
      rw [hplace.1, ahead_zero]
  | some seen =>
      obtain ⟨k, hk, hplace⟩ := hplace
      obtain ⟨j, t, hj, ht, htarget, -⟩ := hheads
      obtain rfl := InState.inj hk hj
      rw [hdue, Nat.add_zero] at hplace
      rw [hplace, hpasses k i ⟨t, ht, htarget⟩]

/-- **A step keeps the count** of the toggles. -/
theorem Counted.step {steady performed : Nat} (hc : c.Setting M p I P)
    (hP : ¬ P (.command (.toggle x)))
    (hpasses : ∀ i j, c.flow.Leads i j →
      min (ahead x c.flow j) steady = min (ahead x c.flow (i + 1)) steady)
    (h : c.Stance M P visited a) (hcounted : c.Counted x steady performed visited a)
    (hstep : Code.step M p a = some (es, a')) :
    Ended a' ∨ c.Counted x steady (performed + if a.toggles x then 1 else 0)
      ((c.visit? a).or visited) a' := by
  cases hvisit : c.visit? a with
  | none =>
      -- Within a state, what has been performed is no longer due.
      obtain ⟨place, hmin, hplace⟩ := hcounted
      rw [Option.none_or]
      refine (h.due_step hc hP hvisit hstep).imp_right fun hdue => ?_
      refine ⟨place + if a.toggles x then 1 else 0, by omega, ?_⟩
      cases visited with
      | none =>
          obtain ⟨rfl, hzero⟩ := hplace
          exact ⟨by omega, by omega⟩
      | some seen =>
          obtain ⟨i, hi, hplace⟩ := hplace
          exact ⟨i, hi, by omega⟩
  | some st =>
      obtain ⟨i, s, hi, hs, hheads, hno, hzero, hdue⟩ := h.due_visit (x := x) hc hvisit
      rw [hno, if_neg Bool.false_ne_true, Nat.add_zero, Option.some_or]
      refine .inr ⟨ahead x c.flow i, hcounted.of_visit hpasses hzero hheads, i, hi, ?_⟩
      rw [hdue hstep, ahead_succ hs]

/-- **A certain toggle.** The sequence is about to do the piece of work that toggles a variable and
that has a number of such pieces before it in the flow. -/
def AtToggle (c : Compiled) (x : String) (n : Nat) (a : Code.Config R) : Prop :=
  ∃ (i : Nat) (done ws : List Work) (tail : Tail) (under : List Code.Item),
    c.InState i a.store ∧
      c.flow[i]? = some ⟨done ++ .placed (.command (.toggle x)) :: ws, tail⟩ ∧
      n = ahead x c.flow i + slots x done ∧
      a.stack = c.onto ((.command (.toggle x) :: ws.map (·.statement))
        ++ (tail.statements c.control ++ [loop c.control c.flow])) under

/-- The number of a toggle is one of those of the toggles in its state. -/
theorem AtToggle.bounds {n i : Nat} (h : c.AtToggle x n a)
    (hi : c.InState i a.store) :
    ahead x c.flow i ≤ n ∧ n < ahead x c.flow (i + 1) := by
  obtain ⟨j, done, ws, tail, under, hj, hflow, rfl, -⟩ := h
  obtain rfl := InState.inj hi hj
  have htoggle : slots x (.placed (.command (.toggle x)) :: ws) = slots x ws + 1 := by
    simp [slots, Work.toggles, Statement.toggles, Command.toggles]
  rw [ahead_succ hflow, slots_append, htoggle]
  omega

/-- Others do not toggle the variable. -/
theorem Aside.toggles (h : c.Aside P under) (hP : ¬ P (.command (.toggle x))) :
    Code.Config.toggles x ⟨st, under, firings⟩ = false := by
  cases under with
  | nil => rfl
  | cons item under =>
      cases item with
      | rest control => rfl
      | run index s =>
          rw [← Bool.not_eq_true]
          intro htoggles
          obtain rfl := Statement.eq_of_toggles htoggles
          rcases h index _ List.mem_cons_self with ⟨-, hrunner⟩ | ⟨-, hperforms⟩
          · cases hrunner
          · exact hP hperforms

/-- A toggle that is about to be performed is the one at the place where the sequence stands. -/
theorem Counted.atToggle {steady performed : Nat} (hc : c.Setting M p I P)
    (hP : ¬ P (.command (.toggle x))) (h : c.Stance M P visited a)
    (hcounted : c.Counted x steady performed visited a) (htoggles : a.toggles x = true)
    (hsteady : performed < steady) : c.AtToggle x performed a := by
  cases h with
  | idle htop hstate hnext hheads haround =>
      cases htop with
      | away => cases (haround.aside.toggles hP).symm.trans htoggles
      | _ => cases htoggles
  | @working seen st under firings i done ws tail hflow hseen hstate hcounters hsame haround =>
      cases ws with
      | nil => cases tail <;> cases htoggles
      | cons w ws =>
          have hmem := List.mem_of_getElem? hflow
          have hw : w = .placed (.command (.toggle x)) := by
            cases w with
            | placed t => exact congrArg Work.placed (Statement.eq_of_toggles htoggles)
            | counting command =>
                obtain ⟨y, -, rfl | rfl⟩ := hc.counting _ hmem command (by simp)
                · cases htoggles
                · cases htoggles
          obtain rfl := hw
          obtain ⟨place, hmin, k, hk, hplace⟩ := hcounted
          obtain rfl := InState.inj hk hseen
          have hunder : under.countP (c.toggling x) = 0 := haround.aside.countP
          rw [due, countP_onto, List.countP_append, countP_tail, hunder,
            hc.countP_work hmem (List.subset_append_right _ _), ahead_succ hflow,
            slots_append] at hplace
          exact ⟨k, done, ws, tail, under, hstate, hflow, by omega, rfl⟩
  | deciding => cases htoggles
  | going => cases htoggles

/-! ### Runs -/

/-- Where the simulation has ended, no toggle is performed any more. -/
theorem Ended.filter_trace (h : Ended a) (n : Nat) :
    (Machine.trace (Code.step M p) n a).filter (·.toggles x) = [] := by
  rw [h.trace, List.filter_cons, Code.Config.toggles, h.1]
  rfl

/-- What a run goes through from a stance on, apart from its first state: from the second one on it
is a run from a stance again, and the count goes on. -/
theorem Stance.trace_cases {steady performed : Nat} (hc : c.Setting M p I P)
    (hP : ¬ P (.command (.toggle x)))
    (hpasses : ∀ i j, c.flow.Leads i j →
      min (ahead x c.flow j) steady = min (ahead x c.flow (i + 1)) steady)
    (hsafe : a.Safe M I) (h : c.Stance M P visited a)
    (hcounted : c.Counted x steady performed visited a) (n : Nat) :
    ∃ rest, Machine.trace (Code.step M p) n a = a :: rest ∧
      ((∀ b ∈ rest, c.visit? b = none) ∧ rest.filter (·.toggles x) = [] ∨
        ∃ (k : Nat) (a' : Code.Config R) (visited' : Option (Store R)), k < n ∧
          rest = Machine.trace (Code.step M p) k a' ∧ a'.Safe M I ∧
          c.Stance M P visited' a' ∧
          c.Counted x steady (performed + if a.toggles x then 1 else 0) visited' a') := by
  rcases Compiled.trace_cases n a with htrace | ⟨k, es, a', rfl, hstep, htrace⟩
  · exact ⟨[], htrace, .inl ⟨fun _ hb => absurd hb List.not_mem_nil, rfl⟩⟩
  · refine ⟨_, htrace, ?_⟩
    have hended (hended : Ended a') : (∀ b ∈ Machine.trace (Code.step M p) k a',
        c.visit? b = none) ∧ (Machine.trace (Code.step M p) k a').filter (·.toggles x) = [] :=
      ⟨List.filterMap_eq_nil_iff.mp (hended.visits k), hended.filter_trace k⟩
    rcases h.step hc hsafe hstep with h' | hstance
    · exact .inl (hended h')
    rcases hcounted.step hc hP hpasses h hstep with h' | hcounted'
    · exact .inl (hended h')
    exact .inr ⟨k, a', _, Nat.lt_succ_self k, rfl, Code.step_safe hc.sustains hsafe hstep,
      hstance, hcounted'⟩

/-- **The toggles of a run** are those of the flow, one after the other, as far as they are steady.
The induction is on the steps of the run, and the count tells which toggle comes next. -/
theorem Stance.nth_toggle {steady performed : Nat} (hc : c.Setting M p I P)
    (hP : ¬ P (.command (.toggle x)))
    (hpasses : ∀ i j, c.flow.Leads i j →
      min (ahead x c.flow j) steady = min (ahead x c.flow (i + 1)) steady)
    (hsafe : a.Safe M I) (h : c.Stance M P visited a)
    (hcounted : c.Counted x steady performed visited a) {n k : Nat} {b : Code.Config R}
    (hb : ((Machine.trace (Code.step M p) n a).filter (·.toggles x))[k]? = some b)
    (hsteady : performed + k < steady) : c.AtToggle x (performed + k) b := by
  induction n using Nat.strongRecOn generalizing visited a performed k with
  | ind n ih =>
      obtain ⟨rest, htrace, hcases⟩ := h.trace_cases hc hP hpasses hsafe hcounted n
      -- What comes after the first state is a run with fewer steps.
      have hrest {l : Nat} (hl : (rest.filter (·.toggles x))[l]? = some b)
          (hsteady : performed + (if a.toggles x then 1 else 0) + l < steady) :
          c.AtToggle x (performed + (if a.toggles x then 1 else 0) + l) b := by
        rcases hcases with ⟨-, hnil⟩ | ⟨j, a', visited', hj, rfl, hsafe', hstance, hcounted'⟩
        · rw [hnil] at hl
          cases hl
        · exact ih j hj hsafe' hstance hcounted' hl hsteady
      rw [htrace, List.filter_cons] at hb
      cases htoggles : a.toggles x with
      | false =>
          rw [htoggles, if_neg Bool.false_ne_true] at hb
          rw [htoggles, if_neg Bool.false_ne_true, Nat.add_zero] at hrest
          exact hrest hb hsteady
      | true =>
          rw [htoggles, if_pos rfl] at hb
          rw [htoggles, if_pos rfl] at hrest
          cases k with
          | zero =>
              obtain rfl := Option.some.inj hb
              exact hcounted.atToggle hc hP h htoggles hsteady
          | succ l =>
              have hsucc : performed + (l + 1) = performed + 1 + l := by omega
              rw [hsucc] at hsteady ⊢
              exact hrest hb hsteady

/-- **A run that gets past the steady toggles** has performed all of them. -/
theorem Stance.steady_le {steady performed : Nat} (hc : c.Setting M p I P)
    (hP : ¬ P (.command (.toggle x)))
    (hpasses : ∀ i j, c.flow.Leads i j →
      min (ahead x c.flow j) steady = min (ahead x c.flow (i + 1)) steady)
    (hsafe : a.Safe M I) (h : c.Stance M P visited a)
    (hcounted : c.Counted x steady performed visited a) {n i : Nat} {b : Code.Config R}
    (hb : b ∈ Machine.trace (Code.step M p) n a) (hvisit : c.visit? b = some st)
    (hi : c.InState i st) (hpast : steady ≤ ahead x c.flow i) :
    steady ≤ performed + ((Machine.trace (Code.step M p) n a).filter (·.toggles x)).length := by
  induction n using Nat.strongRecOn generalizing visited a performed with
  | ind n ih =>
      obtain ⟨rest, htrace, hcases⟩ := h.trace_cases hc hP hpasses hsafe hcounted n
      rw [htrace] at hb ⊢
      have hlength : ((a :: rest).filter (·.toggles x)).length
          = (if a.toggles x then 1 else 0) + (rest.filter (·.toggles x)).length := by
        rw [List.filter_cons]
        cases a.toggles x
        · simp
        · simp [Nat.add_comm]
      rw [hlength]
      rcases List.mem_cons.mp hb with rfl | hb
      · obtain ⟨j, s, hj, -, hheads, -, hzero, -⟩ := h.due_visit (x := x) hc hvisit
        obtain rfl := InState.inj hi hj
        have := hcounted.of_visit hpasses hzero hheads
        omega
      · rcases hcases with ⟨hnone, -⟩ | ⟨k, a', visited', hk, rfl, hsafe', hstance, hcounted'⟩
        · cases (hnone b hb).symm.trans hvisit
        · have := ih k hk hsafe' hstance hcounted' hb
          omega

end Compiled

/-! ### Marks -/

/-- The measurement of a label has the number of the label. -/
theorem Marker.measurements_getElem? {mk : Marker} {n : Nat} {label : String}
    (h : mk.labels[n]? = some label) :
    mk.measurements[n]? = some (mk.measurement label (n + 1)) := by
  simp [measurements, numbered, List.getElem?_zipIdx, h, Nat.add_comm]

/-- The output expression of a label has the number of the label. -/
theorem Marker.outputCalls_getElem? {mk : Marker} {n : Nat} {label : String}
    (h : mk.labels[n]? = some label) :
    mk.outputCalls[n]? = some (mk.outputCall label (n + 1)) := by
  simp [outputCalls, numbered, List.getElem?_zipIdx, h, Nat.add_comm]

/-- Other sequences do not toggle a variable if their scripts do not. -/
theorem Compiled.not_foreign_toggle {cs : List Compiled} {c : Compiled} {x : String}
    (h : ∀ d ∈ cs, d.control.index ≠ c.control.index → togglesOf x d.script = []) :
    ¬ c.Foreign cs (.command (.toggle x)) := by
  intro hforeign
  cases hforeign with
  | counting _ _ hkeeps =>
      obtain ⟨y, -, hcommand | hcommand⟩ := hkeeps
      · cases hcommand
      · cases hcommand
  | @placed d _ hd hne hmem =>
      have hnone := length_togglesOf (x := x) d.script
      rw [h d hd hne, List.length_nil, eq_comm, List.countP_eq_zero] at hnone
      exact hnone _ hmem (by simp [Statement.toggles, Command.toggles])

/-! ### A script with marks -/

/-- A marker as it is installed. -/
def Marker.installed (tag : String) : Marker :=
  ⟨tag, .scalar ("MARK_" ++ tag), ⟨"_$markSt_" ++ tag⟩, []⟩

/-- A script with three marks, the second one in a loop with two rounds, and its marker. -/
def tour : List Statement × Marker :=
  let (first, probe) := (Marker.installed "P").mark "A"
  let (second, probe) := probe.mark "B"
  let (third, probe) := probe.mark "C"
  ([first, .block (.repeatLoop (.integer 2)) [second], third], probe)

/-- The marker and the script in a module. -/
def tourHistory : List Operation :=
  [.marker "P", .sequence (.bool true) tour.1]

/-- What the script is laid out as. -/
def tourFragment (x : String) : Fragment :=
  let toggle : Work := .placed (.command tour.2.state.toggle)
  ⟨[⟨[toggle, .counting (.assign x ⟨_, .integer 0⟩)], .jump 1⟩,
    ⟨[], .branch (.comparison .lt (Comparison.definedOn_integer _) (.ident x) (.integer 2)) 2 3⟩,
    ⟨[toggle, .counting (.increment x)], .jump 1⟩], [toggle]⟩

/-- What the script is compiled to. -/
def Compiled.tour : Compiled :=
  ⟨⟨1⟩, .bool true, Stimulus.tour.1, tourFragment "_$1", ["_$1"]⟩

/-- The script has one layout, but for the name of its counter. -/
theorem Sequence.Layout.tour_eq {number : Event → Nat} {counters : List String} {f : Fragment}
    (h : Layout number 0 [] tour.1 counters f) :
    ∃ x, counters = [x] ∧ f = tourFragment x := by
  cases h with
  | wait h => cases h
  | loop h => cases h
  | work hfirst hrest =>
      cases hfirst
      cases hrest with
      | wait h => cases h
      | work h => cases h
      | loop hshape hbody hend =>
          cases hshape with
          | repeatLoop count body counter =>
              cases hbody with
              | wait h => cases h
              | loop h => cases h
              | work hsecond hbody =>
                  cases hsecond
                  cases hbody
                  cases hend with
                  | wait h => cases h
                  | loop h => cases h
                  | work hthird hend =>
                      cases hthird
                      cases hend
                      exact ⟨_, rfl, rfl⟩

/-- The script has nothing to do with the variables of the sequencer. -/
theorem ignores_tour (owned : List String) :
    ∀ q ∈ partsOf tour.1, Meaning.plain.Ignores owned q := by
  have htoggle (x : String) : Meaning.plain.Ignores owned (.plain (.command (.toggle x))) := by
    refine ⟨⟨fun _ _ hagree => .some hagree, ?_⟩, fun y hy => by cases hy⟩
    rintro st _ ⟨⟩ y -
    rfl
  intro q hq
  simp only [tour, Marker.mark, partsOf, Statement.parts, List.append_nil, List.cons_append,
    List.nil_append, List.mem_cons, List.not_mem_nil, or_false] at hq
  rcases hq with rfl | rfl | rfl | rfl
  · exact htoggle _
  · exact fun _ _ _ => rfl
  · exact htoggle _
  · exact htoggle _

/-- A new module has no fault after the marker and the script. -/
theorem fault_tour {m₀ : Module} (h₀ : Module.new? .standard "" "bench" = .ok m₀) :
    (m₀.after tourHistory).fault = none := by
  rw [Module.eq_of_new? h₀, ← Option.isNone_iff_eq_none]
  decide +kernel

/-- A new module has the variables of the marker and of the sequence then. -/
theorem names_tour {m₀ : Module} (h₀ : Module.new? .standard "" "bench" = .ok m₀) :
    (m₀.after tourHistory).declaredVariables.map (·.name)
      = "_$markSt_P" :: ((⟨1⟩ : SequenceControl).names ++ ["_$1"]) := by
  rw [Module.eq_of_new? h₀]
  decide +kernel

/-- The run of the script, if its timer expires once and nothing else happens. -/
def tourRun (m : Module) : List (Code.Config Float) :=
  Machine.trace (Code.step Meaning.plain (m.code [.tour])) 80
    ⟨Meaning.plain.initial m fun _ => .integer 0, [], [⟨.timer 1, id⟩]⟩

/-- **Steady marks are located right.** If all toggles of a marker's variable are those of its
marks, in the order of their labels, then the toggle with the number of a label is that of its mark,
in every run of the module, as long as no mark up to this one stands in a loop or a conditional. A run
that comes to the end of the script performs this toggle. -/
theorem Module.marks_located {options : Options} {present name : String} {m₀ : Module}
    (h₀ : Module.new? options present name = .ok m₀) (history : List Operation)
    (hfault : (m₀.after history).fault = none) :
    ∃ cs, (m₀.after history).Hosts cs ∧
      cs.map (·.source) = sourcesOf (registrations options.devices history) ∧
      ∀ c ∈ cs, ∀ mk : Marker, togglesOf mk.state.name c.script = mk.labels.map some →
        (∀ d ∈ cs, d.control.index ≠ c.control.index → togglesOf mk.state.name d.script = []) →
        ∀ (n : Nat) (label : String), mk.labels[n]? = some label →
          n < steadyToggles mk.state.name c.script →
          mk.measurements[n]? = some (mk.measurement label (n + 1)) ∧
          mk.outputCalls[n]? = some (mk.outputCall label (n + 1)) ∧
          ∀ {R : Type} (M : Meaning R), M.Lawful →
            (∀ d ∈ cs, ∀ q ∈ partsOf d.script, M.Ignores (ownedBy cs) q) →
            ∀ firings : List (Firing R), (∀ f ∈ firings, f.Apart (ownedBy cs)) →
            ∀ (st : Store R) (steps : Nat),
              let start : Code.Config R := ⟨M.initial (m₀.after history) st, [], firings⟩
              let run := Machine.trace (Code.step M ((m₀.after history).code cs)) steps start
              (∀ a, (run.filter (·.toggles mk.state.name))[n]? = some a →
                c.AtToggle mk.state.name n a) ∧
              (∀ su ∈ c.visits M ((m₀.after history).code cs) steps start,
                su c.control.state.name = .integer (c.flow.length - 1 : Nat) →
                ∃ a, (run.filter (·.toggles mk.state.name))[n]? = some a) := by
  obtain ⟨cs, h, hsources⟩ := hosts_after h₀ history hfault
  have ho := orderly_after h₀ history
  refine ⟨cs, h, hsources, fun c hc mk hmarks hothers n label hlabel hsteady => ?_⟩
  refine ⟨Marker.measurements_getElem? hlabel, Marker.outputCalls_getElem? hlabel, ?_⟩
  intro R M hM hignores firings hfirings st steps start run
  have hlayout := h.layout c hc _ (agrees_numberIn ho)
  have hc' := h.setting ho hM hc hignores
  have hP := Compiled.not_foreign_toggle hothers
  have hpasses (i j : Nat) (hleads : c.flow.Leads i j) :=
    hlayout.ahead_leads (x := mk.state.name) hleads
  have hstance := h.stance_start ho hM hc hfirings st
  have hsafe := h.safe_start hM hfirings st
  have hcounted : c.Counted mk.state.name (steadyToggles mk.state.name c.script) 0 none start :=
    ⟨0, rfl, rfl, rfl⟩
  refine ⟨fun a ha => ?_, fun su hsu hend => ?_⟩
  · have hnth := hstance.nth_toggle hc' hP hpasses hsafe hcounted ha (by omega)
    rwa [Nat.zero_add] at hnth
  · obtain ⟨b, hb, hvisit⟩ := List.mem_filterMap.mp hsu
    -- All toggles of the flow stand before its last state.
    have hpast : steadyToggles mk.state.name c.script
        ≤ ahead mk.state.name c.flow (c.flow.length - 1) := by
      rw [Compiled.flow, hlayout.ahead_last]
      exact steadyToggles_le c.script
    have hcount := hstance.steady_le hc' hP hpasses hsafe hcounted hb hvisit hend hpast
    rw [Nat.zero_add] at hcount
    exact ⟨_, List.getElem?_eq_getElem (Nat.lt_of_lt_of_le hsteady hcount)⟩

/-- The first mark of the script is located right. -/
theorem Module.marks_located_first :
    ∃ m₀ a, Module.new? .standard "" "bench" = .ok m₀ ∧
      (m₀.after tourHistory).fault = none ∧ tour.2.labels[0]? = some "A" ∧
      tour.2.measurements[0]? = some (tour.2.measurement "A" 1) ∧
      ((tourRun (m₀.after tourHistory)).filter (·.toggles tour.2.state.name))[0]? = some a ∧
      Compiled.tour.AtToggle tour.2.state.name 0 a := by
  obtain ⟨m₀, h₀⟩ : ∃ m₀, Module.new? .standard "" "bench" = .ok m₀ := ⟨_, rfl⟩
  have hfault := fault_tour h₀
  have hlength : ((tourRun (m₀.after tourHistory)).filter
      (·.toggles tour.2.state.name)).length = 4 := by
    rw [eq_of_new? h₀]
    decide +kernel
  obtain ⟨cs, h, hsources, hmarks⟩ := Module.marks_located h₀ _ hfault
  obtain rfl := h.eq_singleton (orderly_after h₀ _) hsources (·.tour_eq) (names_tour h₀)
  have hothers : ∀ d ∈ [Compiled.tour], d.control.index ≠ Compiled.tour.control.index →
      togglesOf tour.2.state.name d.script = [] := by
    rintro d hd hne
    obtain rfl := List.mem_singleton.mp hd
    exact absurd rfl hne
  obtain ⟨hmeasurement, -, hruns⟩ := hmarks _ (List.mem_singleton_self _) tour.2 (by decide)
    hothers 0 "A" rfl (by decide)
  obtain ⟨hlocated, -⟩ := hruns Meaning.plain Meaning.plain_lawful
    (fun d hd => by
      obtain rfl := List.mem_singleton.mp hd
      exact ignores_tour _)
    [⟨.timer 1, id⟩] (fun f hf => Firing.apart_of_id (by rw [List.mem_singleton.mp hf]))
    (fun _ => .integer 0) 80
  have hfirst := List.getElem?_eq_getElem (Nat.lt_of_lt_of_eq (Nat.zero_lt_succ 3) hlength.symm)
  exact ⟨m₀, _, h₀, hfault, rfl, hmeasurement, hfirst, hlocated _ hfirst⟩

/-- **A mark behind a loop with a mark.** The third toggle of the run is not that of the third mark,
whose measurement has the number 3: it is performed in state 2, and the third mark stands in state
3. -/
theorem Module.marks_located_not_third :
    ∃ m₀ a, Module.new? .standard "" "bench" = .ok m₀ ∧
      (m₀.after tourHistory).fault = none ∧ (m₀.after tourHistory).Hosts [.tour] ∧
      togglesOf tour.2.state.name Compiled.tour.script = tour.2.labels.map some ∧
      tour.2.labels[2]? = some "C" ∧
      tour.2.measurements[2]? = some (tour.2.measurement "C" 3) ∧
      (∃ b ∈ tourRun (m₀.after tourHistory),
        b.store Compiled.tour.control.state.name
          = .integer (Compiled.tour.flow.length - 1 : Nat)) ∧
      ((tourRun (m₀.after tourHistory)).filter (·.toggles tour.2.state.name))[2]? = some a ∧
      a.store Compiled.tour.control.state.name = .integer 2 ∧
      ¬ Compiled.tour.AtToggle tour.2.state.name 2 a := by
  obtain ⟨m₀, h₀⟩ : ∃ m₀, Module.new? .standard "" "bench" = .ok m₀ := ⟨_, rfl⟩
  have hfault := fault_tour h₀
  have hstates : ((tourRun (m₀.after tourHistory)).filter (·.toggles tour.2.state.name)).map
      (fun b => (b.store "_$state_1").integer?) = [some 0, some 2, some 2, some 3] := by
    rw [eq_of_new? h₀]
    decide +kernel
  have hends : some 4 ∈ (tourRun (m₀.after tourHistory)).map
      (fun b => (b.store "_$state_1").integer?) := by
    rw [eq_of_new? h₀]
    decide +kernel
  obtain ⟨cs, h, hsources⟩ := hosts_after h₀ _ hfault
  obtain rfl := h.eq_singleton (orderly_after h₀ _) hsources (·.tour_eq) (names_tour h₀)
  obtain ⟨b, hb, hlast⟩ := List.mem_map.mp hends
  have hthird := congrArg (·[2]?) hstates
  rw [List.getElem?_map] at hthird
  obtain ⟨a, ha, hstate⟩ := Option.map_eq_some_iff.mp hthird
  have hstate : a.store Compiled.tour.control.state.name = .integer (2 : Nat) :=
    Datum.eq_of_integer? hstate
  refine ⟨m₀, a, h₀, hfault, h, by decide, rfl, rfl, ⟨b, hb, Datum.eq_of_integer? hlast⟩, ha,
    hstate, fun hat => ?_⟩
  -- Two toggles stand in the first three states.
  have hbounds := hat.bounds (i := 2) hstate
  have hahead : ahead tour.2.state.name Compiled.tour.flow (2 + 1) = 2 := by decide
  omega

end Stimulus
