import Stimulus.Proofs.Sequence.Accepted

/-!
# How arms end

An arm of the case that runs a sequence is work followed by an ending: the assignments to the
variables of the sequence by which it waits, jumps or branches. The endings are written out here as
the statements they are, apart from the tails of a flow and from how these are emitted. The next
states of an arm and the number it waits for are read off the assignments in its ending.

## Main definitions

* `assignedAll`: the numbers that statements assign to a variable.
* `Sequence.IsEnding`: the statements with which an arm may end.
* `Sequence.Leads`: the edges between arms.

## Main results

* `Sequence.IsEnding.eq_of_append`: an arm has at most one ending.
* `Sequence.Tail.isEnding`: the statements of a tail that does not finish are an ending.
-/

namespace Stimulus

/-! ### Assigned numbers -/

mutual

/-- The numbers that a statement assigns to a variable, in order, whichever branches are taken. -/
def Statement.assigned (x : String) : Statement → List Int
  | .command (.assign y ⟨_, .integer n⟩) => if y = x then [n] else []
  | .branch _ yes no => assignedAll x yes ++ assignedAll x no
  | _ => []

/-- The numbers that statements assign to a variable, in order. -/
def assignedAll (x : String) : List Statement → List Int
  | [] => []
  | s :: rest => s.assigned x ++ assignedAll x rest

end

/-- The numbers that two lists of statements assign. -/
@[simp] theorem assignedAll_append (x : String) (xs ys : List Statement) :
    assignedAll x (xs ++ ys) = assignedAll x xs ++ assignedAll x ys := by
  induction xs with
  | nil => rfl
  | cons s xs ih => simp only [List.cons_append, assignedAll, ih, List.append_assoc]

/-- The numbers that lists of statements in a row assign. -/
theorem assignedAll_flatten (x : String) (xss : List (List Statement)) :
    assignedAll x xss.flatten = xss.flatMap (assignedAll x) := by
  induction xss with
  | nil => rfl
  | cons xs xss ih => rw [List.flatten_cons, assignedAll_append, ih, List.flatMap_cons]

namespace Sequence

/-! ### Endings -/

/-- **The statements with which an arm may end.** It waits for its timer or for the event with a
number, jumps to a state, or branches to one of two. Only a jump and a branch set the flag by which
the sequence runs on. -/
inductive IsEnding (c : SequenceControl) : List Statement → Prop
  | timer (seconds : Expr .real) (next : Nat) :
      IsEnding c [.command (.assign c.event.name ⟨_, .integer 0⟩),
        .command (.assign c.state.name ⟨_, .integer next⟩),
        .command (.assign c.time.name ⟨_, Expr.now.add seconds⟩)]
  | signal (number next : Nat) : 1 ≤ number →
      IsEnding c [.command (.assign c.event.name ⟨_, .integer number⟩),
        .command (.assign c.state.name ⟨_, .integer next⟩)]
  | jump (next : Nat) :
      IsEnding c [.command (.assign c.running.name ⟨_, .bool true⟩),
        .command (.assign c.state.name ⟨_, .integer next⟩)]
  | branch (condition : Expr .bool) (yes no : Nat) :
      IsEnding c [.command (.assign c.running.name ⟨_, .bool true⟩),
        .branch condition [.command (.assign c.state.name ⟨_, .integer yes⟩)]
          [.command (.assign c.state.name ⟨_, .integer no⟩)]]

namespace IsEnding

variable {c : SequenceControl} {tail tail' : List Statement}

/-- **An arm has at most one ending.** -/
theorem eq_of_append (h : IsEnding c tail) (h' : IsEnding c tail') {work work' : List Statement}
    (heq : work ++ tail = work' ++ tail') : tail = tail' := by
  by_cases hlength : tail.length = tail'.length
  · exact List.append_inj_right' heq hlength
  · -- One of them waits for the timer, which is set last, and the other one does not set it.
    obtain ⟨hstate, -⟩ := c.names_ne
    have hlast := congrArg List.getLast? heq
    cases h <;> cases h' <;> simp [hstate, hstate.symm] at hlength hlast

/-- An ending lets the sequence run on exactly if it waits for nothing. -/
theorem runs_on (h : IsEnding c tail) :
    .command (.assign c.running.name ⟨_, .bool true⟩) ∈ tail ↔
      assignedAll c.event.name tail = [] := by
  obtain ⟨-, -, -, hrunning, hstate, -⟩ := c.names_ne
  cases h <;>
    simp [assignedAll, Statement.assigned, hstate, hrunning.symm]

end IsEnding

/-! ### Tails as endings -/

/-- The states to which a tail may lead. -/
def Tail.targets : Tail → List Nat
  | .delay _ next => [next]
  | .signal _ next => [next]
  | .jump next => [next]
  | .branch _ yes no => [yes, no]
  | .finish => []

namespace Tail

variable (c : SequenceControl) (tail : Tail)

/-- The statements of a tail that does not finish are an ending, if the event it may wait for has a
positive number. -/
theorem isEnding {tail : Tail} (h : tail ≠ .finish) (hpos : ∀ n, tail.signal? = some n → 1 ≤ n) :
    IsEnding c (tail.statements c) := by
  cases tail with
  | delay seconds next => exact .timer seconds next
  | signal number next => exact .signal number next (hpos number rfl)
  | jump next => exact .jump next
  | branch condition yes no => exact .branch condition yes no
  | finish => exact absurd rfl h

/-- **The targets of a tail** are the numbers that its statements assign to the state. -/
theorem assigned_state :
    assignedAll c.state.name (tail.statements c) = tail.targets.map (fun n : Nat => (n : Int)) := by
  obtain ⟨-, -, -, -, hevent, -⟩ := c.names_ne
  cases tail <;>
    simp [statements, targets, assignedAll, Statement.assigned, awaitEvent, goto, runOn,
      Variable.assign, hevent.symm]

/-- **The wait of a tail** is the number that its statements assign to the event, where 0 stands for
the timer. -/
theorem assigned_event :
    assignedAll c.event.name (tail.statements c)
      = (tail.wait?.map fun n => ((n.getD 0 : Nat) : Int)).toList := by
  obtain ⟨-, -, -, -, hevent, -⟩ := c.names_ne
  cases tail <;>
    simp [statements, wait?, assignedAll, Statement.assigned, awaitEvent, goto, runOn,
      Variable.assign, hevent]

end Tail

/-! ### Edges between arms -/

/-- An arm may lead to another one: its ending assigns the number of the latter to the state. -/
def Leads (c : SequenceControl) (arms : List Arm) (i j : Nat) : Prop :=
  ∃ a work tail, arms[i]? = some a ∧ a.body = work ++ tail ∧ IsEnding c tail ∧
    (j : Int) ∈ assignedAll c.state.name tail

end Sequence

end Stimulus
