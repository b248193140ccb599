import Stimulus.Proofs.Run.Holding
import Stimulus.Proofs.Sequence.Graph

/-!
# Where a sequence stands

A sequence **visits** a state when its case is about to choose the arm of that state. Between two
visits lie the statements of the state, what other sequences do and what happens in between, but
all of this tells on the next visit in a few ways only: the tail of the state leads to the next
one, and a counter holds what the work of the state has made of it.

This is an invariant of the machine that runs the code of a module, whatever the guards of the
sequences are and whatever else they do, as long as the scripts leave the variables of the sequencer
alone.

## Main definitions

* `Compiled.visit?`: the store in which a sequence visits a state, if it is about to do so.
* `Compiled.Heads`: what a store has to do with that of the last visit.
* `Compiled.Setting`: what a sequence can rely on while the code of a module runs.
* `Compiled.Stance`: where a sequence stands in the middle of a run.

## Main results

* `Compiled.Stance.visit?_eq`: a sequence visits the state that it has been heading for.
* `Compiled.Stance.step`: a step takes a stance to a stance.
-/

namespace Stimulus

open Machine Sequence

/-! ### Counting -/

namespace Sequence

variable {R : Type}

/-- What a piece of work makes of the value of a counter. -/
def Work.tally (x : String) : Work → Datum R → Datum R
  | .counting (.assign y _), d => if y = x then .integer 0 else d
  | .counting (.increment y), .integer n => .integer (if y = x then n + 1 else n)
  | _, d => d

/-- What work makes of the value of a counter. -/
def tallied (x : String) (ws : List Work) (d : Datum R) : Datum R :=
  ws.foldl (fun d w => w.tally x d) d

/-- Work that follows other work. -/
@[simp] theorem tallied_append (x : String) (ws more : List Work) (d : Datum R) :
    tallied x (ws ++ more) d = tallied x more (tallied x ws d) :=
  List.foldl_append

/-- The next state is the one that a condition chooses, if the tail is a branch. -/
def Tail.Chooses (M : Meaning R) (st : Store R) (next : Nat) : Tail → Prop
  | .branch condition yes no => next = if M.bool condition st then yes else no
  | _ => True

end Sequence

namespace Compiled

variable {R : Type} (c : Compiled)

/-! ### Visits -/

/-- The store in which a sequence visits a state, if it is about to do this. -/
def visit? (a : Code.Config R) : Option (Store R) :=
  match a.stack with
  | .run index (.select _ _) :: _ => if index = c.control.index then some a.store else none
  | _ => none

/-- A sequence heads for a state since a visit, if there has been one. The counters hold what the
work of the visited state has made of them. -/
def Heads (M : Meaning R) (next : Nat) (st : Store R) : Option (Store R) → Prop
  | none => next = 0
  | some visited => ∃ (i : Nat) (s : State), visited c.control.state.name = .integer i ∧
      c.flow[i]? = some s ∧ next ∈ s.tail.targets ∧
      (∀ x ∈ c.counters, st x = tallied x s.work (visited x)) ∧
      (s.work = [] →
        s.tail.Chooses M (visited.set c.control.running.name (.integer 1)) next)

/-! ### Stances -/

/-- The variables that tell where a sequence stands. -/
def bearings : List String :=
  c.control.state.name :: c.counters

/-- A statement leaves alone where a sequence stands, as long as an invariant holds. -/
def Spares (M : Meaning R) (I : Store R → Prop) (s : Statement) : Prop :=
  ∀ st st', I st → M.perform s st = some st' → ∀ x ∈ c.bearings, st' x = st x

/-- The case that chooses the arm of the current state. -/
def select : Statement :=
  .select ⟨_, c.control.state.expr⟩ (c.flow.arms c.control)

/-- What a sequence has on the stack while it is not within a state. -/
inductive Idling : List Statement → Prop
  | away : Idling []
  | again : Idling [loop c.control c.flow]
  | stopping : Idling [.command (c.control.running.assign (.bool false)), c.select,
      loop c.control c.flow]
  | choosing : Idling [c.select, loop c.control c.flow]
  | timing (due : Expr .real) :
      Idling [.command (c.control.time.assign due), loop c.control c.flow]

/-- What else is on the stack: the statements of others, which have a property, and turns of the
sequence that are still to come. -/
def Aside (P : Statement → Prop) (stack : List Code.Item) : Prop :=
  ∀ index s, .run index s ∈ stack →
    (index = c.control.index ∧ s = c.runner) ∨ (index ≠ c.control.index ∧ s.Performs P)

/-- What a sequence can rely on while the code of a module runs. The code keeps an invariant of
the store, by which counters hold integers, and the other sequences perform statements with a
property. -/
structure Setting (M : Meaning R) (p : Code) (I : Store R → Prop) (P : Statement → Prop) :
    Prop where
  lawful : M.Lawful
  nodup : c.names.Nodup
  complete : c.flow.Complete
  placed : ∀ s ∈ c.flow, ∀ t, .placed t ∈ s.work →
    (∀ st, M.expand st t = none) ∧ c.Spares M I t
  counting : ∀ s ∈ c.flow, ∀ command, .counting command ∈ s.work → Keeps c.counters command
  integers : ∀ st, I st → ∀ x ∈ c.counters, ∃ n : Int, st x = .integer n
  sustains : ∀ cause index s, .run index s ∈ p.reaction cause → s.Performs (Code.Sustains M I)
  reaction : ∀ cause, c.Aside P (p.reaction cause)
  spares : ∀ s, P s → c.Spares M I s

/-- What else is on the stack and what is yet to happen leaves alone where a sequence stands. -/
structure Around (P : Statement → Prop) (under : List Code.Item) (firings : List (Firing R)) :
    Prop where
  aside : c.Aside P under
  changes : ∀ f ∈ firings, ∀ su, ∀ x ∈ c.bearings, f.change su x = su x

/-- The stack with some statements of a sequence on it. -/
def onto (items : List Statement) (under : List Code.Item) : List Code.Item :=
  items.map (.run c.control.index) ++ under

/-- **Where a sequence stands** since a visit, if there has been one: between two states, within
the work of a state, or at a later statement of its tail. -/
inductive Stance (M : Meaning R) (P : Statement → Prop) :
    Option (Store R) → Code.Config R → Prop
  | idle {visited : Option (Store R)} {top : List Statement} {st : Store R}
      {under : List Code.Item} {firings : List (Firing R)} {next : Nat} :
      c.Idling top → st c.control.state.name = .integer next → next < c.flow.length →
      c.Heads M next st visited → c.Around P under firings →
      Stance M P visited ⟨st, c.onto top under, firings⟩
  | working {visited st : Store R} {under : List Code.Item} {firings : List (Firing R)} {i : Nat}
      {done ws : List Work} {tail : Tail} :
      c.flow[i]? = some ⟨done ++ ws, tail⟩ → visited c.control.state.name = .integer i →
      st c.control.state.name = .integer i →
      (∀ x ∈ c.counters, st x = tallied x done (visited x)) → (done = [] → st = visited) →
      c.Around P under firings →
      Stance M P (some visited) ⟨st, c.onto (ws.map (·.statement)
        ++ (tail.statements c.control ++ [loop c.control c.flow])) under, firings⟩
  | deciding {visited st : Store R} {under : List Code.Item} {firings : List (Firing R)} {i : Nat}
      {work : List Work} {condition : Expr .bool} {yes no : Nat} :
      c.flow[i]? = some ⟨work, .branch condition yes no⟩ →
      visited c.control.state.name = .integer i →
      (∀ x ∈ c.counters, st x = tallied x work (visited x)) →
      (work = [] → st = visited.set c.control.running.name (.integer 1)) →
      c.Around P under firings →
      Stance M P (some visited) ⟨st, c.onto [.branch condition [goto c.control yes]
        [goto c.control no], loop c.control c.flow] under, firings⟩
  | going {visited st : Store R} {under : List Code.Item} {firings : List (Firing R)}
      {next : Nat} (due : Option (Expr .real)) :
      next < c.flow.length → c.Heads M next st (some visited) → c.Around P under firings →
      Stance M P (some visited) ⟨st, c.onto (goto c.control next ::
        (due.toList.map (fun e => .command (c.control.time.assign e))
          ++ [loop c.control c.flow])) under, firings⟩

/-! ### What keeps a stance -/

section Keeping

variable {c} {M : Meaning R} {p : Code} {I : Store R → Prop} {P : Statement → Prop}
  {st st' : Store R} {visited : Option (Store R)} {under under' : List Code.Item}
  {firings firings' : List (Firing R)} {next : Nat}

/-- Two stores agree on where a sequence stands. -/
def SameBearings (c : Compiled) (st st' : Store R) : Prop :=
  ∀ x ∈ c.bearings, st' x = st x

namespace SameBearings

variable (h : c.SameBearings st st')

include h

/-- The state is the same. -/
theorem state : st' c.control.state.name = st c.control.state.name :=
  h _ List.mem_cons_self

/-- The counters are the same. -/
theorem counter {x : String} (hx : x ∈ c.counters) : st' x = st x :=
  h _ (List.mem_cons_of_mem _ hx)

/-- A sequence heads for the same state. -/
theorem heads (hheads : c.Heads M next st visited) : c.Heads M next st' visited := by
  cases visited with
  | none => exact hheads
  | some visited =>
      obtain ⟨i, s, hi, hs, hnext, hcounters, hchooses⟩ := hheads
      refine ⟨i, s, hi, hs, hnext, fun x hx => ?_, hchooses⟩
      rw [h.counter hx, hcounters x hx]

end SameBearings

/-- There may be something else on the stack, and less may be yet to happen. -/
theorem Around.mono (h : c.Around P under firings) (haside : c.Aside P under')
    (hfirings : firings' ⊆ firings) : c.Around P under' firings' :=
  ⟨haside, fun f hf => h.changes f (hfirings hf)⟩

/-- A store agrees with itself. -/
theorem SameBearings.refl (c : Compiled) (st : Store R) : c.SameBearings st st :=
  fun _ _ => rfl

/-- Other variables may change. -/
theorem SameBearings.set {x : String} (hx : x ∉ c.bearings) (d : Datum R) :
    c.SameBearings st (st.set x d) := by
  intro y hy
  refine st.set_of_ne d ?_
  rintro rfl
  exact hx hy

/-- The state may change as far as the counters are concerned. -/
theorem Setting.state_ne (hc : c.Setting M p I P) {x : String} (hx : x ∈ c.counters) :
    x ≠ c.control.state.name := by
  rintro rfl
  refine List.disjoint_of_nodup_append hc.nodup ?_ hx
  simp [SequenceControl.names]

/-- The other control variables do not tell where a sequence stands. -/
theorem Setting.notMem_bearings (hc : c.Setting M p I P) {x : String} (hx : x ∈ c.control.names)
    (hne : x ≠ c.control.state.name) : x ∉ c.bearings := by
  intro h
  rcases List.mem_cons.mp h with h | h
  · exact hne h
  · exact List.disjoint_of_nodup_append hc.nodup hx h

end Keeping

variable {c} {M : Meaning R} {p : Code} {I : Store R → Prop} {P : Statement → Prop}
  {st st' : Store R} {visited : Option (Store R)} {under : List Code.Item}
  {firings : List (Firing R)} {next : Nat} {a a' : Code.Config R} {es : List (Happening R)}

/-! ### Single steps -/

/-- Less on the stack is aside as well. -/
theorem Aside.tail {item : Code.Item} {stack : List Code.Item} (h : c.Aside P (item :: stack)) :
    c.Aside P stack :=
  fun index s hs => h index s (List.mem_cons_of_mem _ hs)

/-- A sequence visits no state while others have their turns. -/
theorem Aside.visit? (h : c.Aside P under) : c.visit? ⟨st, under, firings⟩ = none := by
  unfold Compiled.visit?
  split
  case h_1 index v arms stack hstack =>
      dsimp only at hstack
      rcases h index _ (by rw [hstack]; exact List.mem_cons_self) with ⟨-, hrunner⟩ | ⟨hne, -⟩
      · cases hrunner
      · exact if_neg hne
  case h_2 => rfl

/-- A sequence visits no state while it performs a plain statement. -/
theorem visit?_of_plain {s : Statement} (h : M.expand st s = none) (items : List Statement) :
    c.visit? ⟨st, c.onto (s :: items) under, firings⟩ = none := by
  cases s with
  | select v arms => cases h
  | _ => rfl

/-- The simulation has ended. -/
def Ended (a : Code.Config R) : Prop :=
  a.stack = [] ∧ a.firings = []

/-- **A step of others** keeps the stance of a sequence, unless its turn begins or the simulation
ends. -/
theorem Stance.step_aside (hc : c.Setting M p I P) (hI : I st)
    (hstate : st c.control.state.name = .integer next) (hnext : next < c.flow.length)
    (hheads : c.Heads M next st visited) (haround : c.Around P under firings)
    (hstep : Code.step M p ⟨st, under, firings⟩ = some (es, a')) :
    Ended a' ∨ c.Stance M P visited a' := by
  have haside := haround.aside
  -- Whatever changes, the sequence keeps its bearings and is away.
  have keep {st' : Store R} {under' : List Code.Item} {firings' : List (Firing R)}
      (hsame : c.SameBearings st st') (haside' : c.Aside P under') (hfirings : firings' ⊆ firings) :
      c.Stance M P visited ⟨st', under', firings'⟩ :=
    .idle .away (hsame.state.trans hstate) hnext (hsame.heads hheads)
      (haround.mono haside' hfirings)
  cases under with
  | nil =>
      cases firings with
      | nil => cases hstep
      | cons f firings =>
          obtain ⟨-, rfl⟩ := Prod.mk.inj (Option.some.inj hstep)
          exact .inr (keep (haround.changes f List.mem_cons_self st) (hc.reaction f.cause)
            (List.subset_cons_self f firings))
  | cons item under =>
      cases item with
      | rest control =>
          obtain ⟨-, rfl⟩ := Prod.mk.inj (Option.some.inj hstep)
          exact .inr (keep (.refl c st) haside.tail (List.Subset.refl _))
      | run index s =>
          rcases haside index s List.mem_cons_self with ⟨rfl, rfl⟩ | ⟨hne, hs⟩
          · -- The turn of the sequence: its guard decides whether it looks at its loop.
            have hrunner : M.expand st c.runner
                = some (if M.bool c.guard st then [loop c.control c.flow] else []) := rfl
            rw [Code.step_expand hrunner] at hstep
            obtain ⟨-, rfl⟩ := Prod.mk.inj (Option.some.inj hstep)
            have haround' := haround.mono haside.tail (List.Subset.refl _)
            refine .inr ?_
            cases M.bool c.guard st with
            | true => exact .idle .again hstate hnext hheads haround'
            | false => exact .idle .away hstate hnext hheads haround'
          · cases hexpand : M.expand st s with
            | some items =>
                rw [Code.step_expand hexpand] at hstep
                obtain ⟨-, rfl⟩ := Prod.mk.inj (Option.some.inj hstep)
                refine .inr (keep (.refl c st) (fun i t ht => ?_) (List.Subset.refl _))
                rcases List.mem_append.mp ht with ht | ht
                · obtain ⟨u, hu, heq⟩ := List.mem_map.mp ht
                  obtain ⟨rfl, rfl⟩ := Code.Item.run.inj heq
                  exact .inr ⟨hne, hs.of_expand hexpand _ hu⟩
                · exact haside.tail i t ht
            | none =>
                cases hperform : M.perform s st with
                | none =>
                    rw [Code.step_end hexpand hperform] at hstep
                    obtain ⟨-, rfl⟩ := Prod.mk.inj (Option.some.inj hstep)
                    exact .inl ⟨rfl, rfl⟩
                | some st' =>
                    rw [Code.step_perform hexpand hperform] at hstep
                    obtain ⟨-, rfl⟩ := Prod.mk.inj (Option.some.inj hstep)
                    have hspares := hc.spares s (hs.of_plain hexpand) st st' hI hperform
                    exact .inr (keep hspares haside.tail (List.Subset.refl _))

/-- A step that gives a control variable other than the state a value keeps the bearings. -/
theorem Setting.step_assign (hc : c.Setting M p I P) {k : Kind} (v : Variable k)
    (hv : v.name ∈ c.control.names) (hne : v.name ≠ c.control.state.name) (e : Expr k)
    {items : List Statement}
    (hstep : Code.step M p ⟨st, c.onto (.command (v.assign e) :: items) under, firings⟩
      = some (es, a')) :
    a' = ⟨st.set v.name (M.value ⟨k, e⟩ st), c.onto items under, firings⟩ ∧
      c.SameBearings st (st.set v.name (M.value ⟨k, e⟩ st)) := by
  have hperform : M.perform (.command (v.assign e)) st
      = some (st.set v.name (M.value ⟨k, e⟩ st)) := hc.lawful.assign _ _ _
  rw [onto, List.map_cons, List.cons_append, Code.step_perform rfl hperform] at hstep
  obtain ⟨-, rfl⟩ := Prod.mk.inj (Option.some.inj hstep)
  exact ⟨rfl, .set (hc.notMem_bearings hv hne) _⟩

/-- **A step of an idle sequence** that is about to visit a state enters the state. -/
theorem Stance.step_choosing (hc : c.Setting M p I P)
    (hstate : st c.control.state.name = .integer next) (hnext : next < c.flow.length)
    (haround : c.Around P under firings)
    (hstep : Code.step M p ⟨st, c.onto [c.select, loop c.control c.flow] under, firings⟩
      = some (es, a')) :
    c.Stance M P (some st) a' := by
  have hflow : c.flow[next]? = some c.flow[next] := List.getElem?_eq_getElem hnext
  have hselect : M.expand st c.select = some (c.flow[next].statements c.control) :=
    congrArg some (Code.chosen_arms hc.lawful c.control hstate hflow)
  rw [onto, List.map_cons, List.cons_append, Code.step_expand hselect] at hstep
  obtain ⟨-, rfl⟩ := Prod.mk.inj (Option.some.inj hstep)
  have hworking : c.Stance M P (some st) ⟨st, c.onto (c.flow[next].work.map (·.statement)
      ++ (c.flow[next].tail.statements c.control ++ [loop c.control c.flow])) under, firings⟩ :=
    .working (show c.flow[next]? = some ⟨[] ++ c.flow[next].work, _⟩ from hflow) hstate hstate
      (fun _ _ => rfl) (fun _ => rfl) haround
  simpa [onto, State.statements] using hworking

/-- **A step of an idle sequence** that has its turn keeps its stance, unless it visits a state. -/
theorem Stance.step_idle (hc : c.Setting M p I P) (hI : I st) {top : List Statement}
    (htop : c.Idling top)
    (hstate : st c.control.state.name = .integer next) (hnext : next < c.flow.length)
    (hheads : c.Heads M next st visited) (haround : c.Around P under firings)
    (hstep : Code.step M p ⟨st, c.onto top under, firings⟩ = some (es, a')) :
    Ended a' ∨ c.Stance M P ((c.visit? ⟨st, c.onto top under, firings⟩).or visited) a' := by
  obtain ⟨hts, -, -, hsr, -, -⟩ := c.control.names_ne
  -- Whatever changes, the sequence keeps its bearings and goes on to the next stage of its turn.
  have keep {st' : Store R} (hsame : c.SameBearings st st') {top' : List Statement}
      (htop' : c.Idling top') : c.Stance M P visited ⟨st', c.onto top' under, firings⟩ :=
    .idle htop' (hsame.state.trans hstate) hnext (hsame.heads hheads) haround
  cases htop with
  | away =>
      rw [show c.visit? ⟨st, c.onto [] under, firings⟩ = none from haround.aside.visit?,
        Option.none_or]
      exact step_aside hc hI hstate hnext hheads haround hstep
  | again =>
      have hloop : M.expand st (loop c.control c.flow)
          = some (if M.bool c.control.running.expr st then
            [.command (c.control.running.assign (.bool false)), c.select,
              loop c.control c.flow] else []) := rfl
      rw [onto, List.map_cons, List.cons_append, Code.step_expand hloop] at hstep
      obtain ⟨-, rfl⟩ := Prod.mk.inj (Option.some.inj hstep)
      refine .inr ?_
      cases M.bool c.control.running.expr st with
      | true => exact keep (.refl c st) .stopping
      | false => exact keep (.refl c st) .away
  | stopping =>
      obtain ⟨rfl, hsame⟩ := hc.step_assign c.control.running (by simp [SequenceControl.names])
        hsr.symm (.bool false) hstep
      exact .inr (keep hsame .choosing)
  | choosing =>
      have hvisit : c.visit? ⟨st, c.onto [c.select, loop c.control c.flow] under, firings⟩
          = some st := if_pos rfl
      rw [hvisit, Option.some_or]
      exact .inr (step_choosing hc hstate hnext haround hstep)
  | timing due =>
      obtain ⟨rfl, hsame⟩ := hc.step_assign c.control.time (by simp [SequenceControl.names]) hts
        due hstep
      exact .inr (keep hsame .again)

/-- What a counting command does to the counters. -/
theorem Setting.perform_counting (hc : c.Setting M p I P) (hI : I st) {command : Command}
    (hkeeps : Keeps c.counters command) :
    ∃ st', M.perform (.command command) st = some st' ∧
      st' c.control.state.name = st c.control.state.name ∧
      ∀ x ∈ c.counters, st' x = (Work.counting command).tally x (st x) := by
  obtain ⟨y, hy, rfl | rfl⟩ := hkeeps
  · have hzero : M.value ⟨_, .integer 0⟩ st = .integer 0 := by
      rw [Meaning.value, hc.lawful.integer_literal]
    refine ⟨_, hc.lawful.assign _ _ _, st.set_of_ne _ (hc.state_ne hy).symm, fun x _ => ?_⟩
    rw [hzero, Store.set]
    simp only [Work.tally, eq_comm (a := x)]
  · obtain ⟨k, hk⟩ := hc.integers st hI y hy
    refine ⟨_, hc.lawful.increment y k st hk, st.set_of_ne _ (hc.state_ne hy).symm, fun x hx => ?_⟩
    obtain ⟨n, hn⟩ := hc.integers st hI x hx
    rw [Store.set, hn]
    simp only [Work.tally]
    by_cases hxy : x = y
    · obtain rfl := hxy
      obtain rfl : k = n := by
        rw [hk] at hn
        injection hn
      rw [if_pos rfl, if_pos rfl]
    · rw [if_neg hxy, if_neg (Ne.symm hxy)]

section InState

variable {seen : Store R} {i : Nat} {done ws work : List Work} {tail : Tail}

/-- **A step within the work of a state** does the next piece of work. -/
theorem Stance.step_work (hc : c.Setting M p I P) (hI : I st) {w : Work}
    (hflow : c.flow[i]? = some ⟨done ++ w :: ws, tail⟩)
    (hseen : seen c.control.state.name = .integer i)
    (hstate : st c.control.state.name = .integer i)
    (hcounters : ∀ x ∈ c.counters, st x = tallied x done (seen x))
    (haround : c.Around P under firings)
    (hstep : Code.step M p ⟨st, c.onto ((w :: ws).map (·.statement)
      ++ (tail.statements c.control ++ [loop c.control c.flow])) under, firings⟩ = some (es, a')) :
    Ended a' ∨ c.Stance M P (some seen) a' := by
  have hmem : ⟨done ++ w :: ws, tail⟩ ∈ c.flow := List.mem_of_getElem? hflow
  rw [List.append_cons] at hflow
  have htallied (x : String) (d : Datum R) :
      tallied x (done ++ [w]) d = w.tally x (tallied x done d) := tallied_append ..
  rw [onto, List.map_cons, List.cons_append, List.map_cons, List.cons_append] at hstep
  cases w with
  | placed t =>
      obtain ⟨hplain, hspares⟩ := hc.placed _ hmem t (by simp)
      cases hperform : M.perform t st with
      | none =>
          rw [Work.statement, Code.step_end (hplain st) hperform] at hstep
          obtain ⟨-, rfl⟩ := Prod.mk.inj (Option.some.inj hstep)
          exact .inl ⟨rfl, rfl⟩
      | some st' =>
          rw [Work.statement, Code.step_perform (hplain st) hperform] at hstep
          obtain ⟨-, rfl⟩ := Prod.mk.inj (Option.some.inj hstep)
          have hsame : c.SameBearings st st' := hspares st st' hI hperform
          refine .inr (.working hflow hseen (hsame.state.trans hstate) (fun x hx => ?_) (by simp)
            haround)
          rw [hsame.counter hx, hcounters x hx, htallied]
          rfl
  | counting command =>
      obtain ⟨st', hperform, hsame, htally⟩ :=
        hc.perform_counting hI (hc.counting _ hmem command (by simp))
      rw [Work.statement, Code.step_perform rfl hperform] at hstep
      obtain ⟨-, rfl⟩ := Prod.mk.inj (Option.some.inj hstep)
      refine .inr (.working hflow hseen (hsame.trans hstate) (fun x hx => ?_) (by simp) haround)
      rw [htally x hx, hcounters x hx, htallied]

/-- **A step at the tail of a state**, when the work of the state is done. -/
theorem Stance.step_tail (hc : c.Setting M p I P) (hflow : c.flow[i]? = some ⟨work, tail⟩)
    (hseen : seen c.control.state.name = .integer i)
    (hcounters : ∀ x ∈ c.counters, st x = tallied x work (seen x)) (hsame : work = [] → st = seen)
    (haround : c.Around P under firings)
    (hstep : Code.step M p ⟨st, c.onto (tail.statements c.control ++ [loop c.control c.flow]) under,
      firings⟩ = some (es, a')) :
    Ended a' ∨ c.Stance M P (some seen) a' := by
  obtain ⟨-, -, -, hsr, hse, -⟩ := c.control.names_ne
  have hlt (j : Nat) (hj : j ∈ tail.targets) : j < c.flow.length :=
    hc.complete.target i j ⟨_, hflow, hj⟩
  -- A tail other than a branch leads to one state, whatever the store is.
  have heads {st' : Store R} (hsame' : c.SameBearings st st') {j : Nat} (hj : j ∈ tail.targets)
      (hchooses : work = [] → tail.Chooses M (seen.set c.control.running.name (.integer 1)) j) :
      c.Heads M j st' (some seen) :=
    hsame'.heads ⟨i, _, hseen, hflow, hj, hcounters, hchooses⟩
  have hone : M.value ⟨_, .bool true⟩ st = .integer 1 := by
    rw [Meaning.value, hc.lawful.bool_literal]
    rfl
  cases tail with
  | delay seconds j =>
      obtain ⟨rfl, hsame'⟩ := hc.step_assign c.control.event (by simp [SequenceControl.names]) hse.symm
        (.integer 0) hstep
      have hj : j ∈ (Tail.delay seconds j).targets := List.mem_singleton_self j
      exact .inr (.going (some (Expr.now.add seconds)) (hlt j hj)
        (heads hsame' hj fun _ => trivial) haround)
  | signal number j =>
      obtain ⟨rfl, hsame'⟩ := hc.step_assign c.control.event (by simp [SequenceControl.names]) hse.symm
        (.integer number) hstep
      have hj : j ∈ (Tail.signal number j).targets := List.mem_singleton_self j
      exact .inr (.going none (hlt j hj) (heads hsame' hj fun _ => trivial)
        haround)
  | jump j =>
      obtain ⟨rfl, hsame'⟩ := hc.step_assign c.control.running (by simp [SequenceControl.names]) hsr.symm
        (.bool true) hstep
      have hj : j ∈ (Tail.jump j).targets := List.mem_singleton_self j
      exact .inr (.going none (hlt j hj) (heads hsame' hj fun _ => trivial)
        haround)
  | branch condition yes no =>
      obtain ⟨rfl, hsame'⟩ := hc.step_assign c.control.running (by simp [SequenceControl.names]) hsr.symm
        (.bool true) hstep
      refine .inr (.deciding hflow hseen (fun x hx => ?_) (fun hwork => ?_) haround)
      · rw [hsame'.counter hx, hcounters x hx]
      · rw [hone, hsame hwork]
  | finish =>
      rw [onto, Tail.statements, List.cons_append, List.map_cons, List.cons_append,
        Code.step_end rfl (hc.lawful.finish st)] at hstep
      obtain ⟨-, rfl⟩ := Prod.mk.inj (Option.some.inj hstep)
      exact .inl ⟨rfl, rfl⟩

/-- **A step that chooses** the next state by a condition. -/
theorem Stance.step_deciding (hc : c.Setting M p I P) {condition : Expr .bool} {yes no : Nat}
    (hflow : c.flow[i]? = some ⟨work, .branch condition yes no⟩)
    (hseen : seen c.control.state.name = .integer i)
    (hcounters : ∀ x ∈ c.counters, st x = tallied x work (seen x))
    (hset : work = [] → st = seen.set c.control.running.name (.integer 1))
    (haround : c.Around P under firings)
    (hstep : Code.step M p ⟨st, c.onto [.branch condition [goto c.control yes] [goto c.control no],
      loop c.control c.flow] under, firings⟩ = some (es, a')) :
    c.Stance M P (some seen) a' := by
  have hexpand : M.expand st (.branch condition [goto c.control yes] [goto c.control no])
      = some [goto c.control (if M.bool condition st then yes else no)] := by
    rw [Meaning.expand]
    cases M.bool condition st <;> rfl
  rw [onto, List.map_cons, List.cons_append, Code.step_expand hexpand] at hstep
  obtain ⟨-, rfl⟩ := Prod.mk.inj (Option.some.inj hstep)
  have htarget : (if M.bool condition st then yes else no)
      ∈ (Tail.branch condition yes no).targets := by
    cases M.bool condition st <;> simp [Tail.targets]
  refine .going none (hc.complete.target i _ ⟨_, hflow, htarget⟩) ?_ haround
  exact ⟨i, _, hseen, hflow, htarget, hcounters, fun hwork => by rw [Tail.Chooses, hset hwork]⟩

/-- **A step that makes a state the next one** leaves the state. -/
theorem Stance.step_going (hc : c.Setting M p I P) {due : Option (Expr .real)}
    (hnext : next < c.flow.length) (hheads : c.Heads M next st (some seen))
    (haround : c.Around P under firings)
    (hstep : Code.step M p ⟨st, c.onto (goto c.control next ::
      (due.toList.map (fun e => .command (c.control.time.assign e))
        ++ [loop c.control c.flow])) under, firings⟩ = some (es, a')) :
    c.Stance M P (some seen) a' := by
  have hvalue : M.value ⟨_, .integer next⟩ st = .integer next := by
    rw [Meaning.value, hc.lawful.integer_literal]
  have hperform : M.perform (goto c.control next) st
      = some (st.set c.control.state.name (.integer next)) := by
    rw [← hvalue]
    exact hc.lawful.assign _ _ _
  rw [onto, List.map_cons, List.cons_append, Code.step_perform rfl hperform] at hstep
  obtain ⟨-, rfl⟩ := Prod.mk.inj (Option.some.inj hstep)
  have hcounter {x : String} (hx : x ∈ c.counters) :
      st.set c.control.state.name (.integer next) x = st x := st.set_of_ne _ (hc.state_ne hx)
  obtain ⟨i, s, hi, hs, htarget, hcounters, hchooses⟩ := hheads
  have hheads : c.Heads M next (st.set c.control.state.name (.integer next)) (some seen) := by
    refine ⟨i, s, hi, hs, htarget, fun x hx => ?_, hchooses⟩
    rw [hcounter hx, hcounters x hx]
  cases due with
  | none => exact .idle .again (st.set_self _ _) hnext hheads haround
  | some due => exact .idle (.timing due) (st.set_self _ _) hnext hheads haround

end InState

/-- A sequence visits no state while it is within one. -/
theorem Setting.visit?_working (hc : c.Setting M p I P) {i : Nat} {done ws : List Work}
    {tail : Tail}
    (hflow : c.flow[i]? = some ⟨done ++ ws, tail⟩) :
    c.visit? ⟨st, c.onto (ws.map (·.statement)
      ++ (tail.statements c.control ++ [loop c.control c.flow])) under, firings⟩ = none := by
  cases ws with
  | nil => cases tail <;> rfl
  | cons w ws =>
      cases w with
      | placed t =>
          obtain ⟨hplain, -⟩ := hc.placed _ (List.mem_of_getElem? hflow) t (by simp)
          exact visit?_of_plain (hplain st) _
      | counting command => rfl

/-- **A sequence visits the state that it has been heading for.** -/
theorem Stance.visit?_eq (hc : c.Setting M p I P) (h : c.Stance M P visited a) :
    c.visit? a = none ∨ c.visit? a = some a.store ∧
      ∃ next : Nat, a.store c.control.state.name = .integer next ∧
        c.Heads M next a.store visited := by
  cases h with
  | idle htop hstate hnext hheads haround =>
      cases htop with
      | away => exact .inl haround.aside.visit?
      | choosing => exact .inr ⟨if_pos rfl, _, hstate, hheads⟩
      | _ => exact .inl rfl
  | working hflow => exact .inl (hc.visit?_working hflow)
  | deciding => exact .inl rfl
  | going => exact .inl rfl

/-- **A step takes a stance to a stance**, unless the simulation ends. -/
theorem Stance.step (hc : c.Setting M p I P) (hsafe : a.Safe M I) (h : c.Stance M P visited a)
    (hstep : Code.step M p a = some (es, a')) :
    Ended a' ∨ c.Stance M P ((c.visit? a).or visited) a' := by
  cases h with
  | idle htop hstate hnext hheads haround =>
      exact step_idle hc hsafe.store htop hstate hnext hheads haround hstep
  | @working seen st under firings i done ws tail hflow hseen hstate hcounters hsame haround =>
      rw [hc.visit?_working hflow, Option.none_or]
      cases ws with
      | nil =>
          rw [List.append_nil] at hflow
          exact step_tail hc hflow hseen hcounters hsame haround hstep
      | cons w ws => exact step_work hc hsafe.store hflow hseen hstate hcounters haround hstep
  | deciding hflow hseen hcounters hset haround =>
      exact .inr (step_deciding hc hflow hseen hcounters hset haround hstep)
  | going due hnext hheads haround =>
      exact .inr (step_going hc hnext hheads haround hstep)

end Compiled

end Stimulus
