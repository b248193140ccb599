import Stimulus.Statement.Build

/-!
# State charts

A state chart is built state by state: states are **allocated** in order, and the statements of
each are **sealed** once, in any order. When every state is sealed, the chart becomes a case over
the state number.

## Main definitions

* `StateChart.start`, `StateChart.allocate`, `StateChart.seal?`
* `StateChart.case?`, the finished case
-/

namespace Stimulus

/-- The states from 0 to `count - 1`, of which some have their statements. -/
structure StateChart where
  count : Nat
  sealed : List (Nat × List Statement)

namespace StateChart

/-- A chart in which state 0 is allocated. -/
def start : StateChart :=
  ⟨1, []⟩

/-- The state in which a chart starts. -/
def entry : Nat :=
  0

/-- Allocates the next state. -/
def allocate (c : StateChart) : Nat × StateChart :=
  (c.count, { c with count := c.count + 1 })

/-- The statements of a state, if it is sealed. -/
def body? (c : StateChart) (state : Nat) : Option (List Statement) :=
  c.sealed.lookup state

/-- Fixes the statements of a state. -/
def seal? (c : StateChart) (state : Nat) (body : List Statement) : Except Fault StateChart :=
  if c.count ≤ state then .error (.misplaced (.unallocatedState state))
  else if (c.body? state).isSome then .error (.misplaced (.resealedState state))
  else .ok { c with sealed := (state, body) :: c.sealed }

/-- The statements of a state that has to be sealed. -/
def sealedBody? (c : StateChart) (state : Nat) : Except Fault (List Statement) :=
  match c.body? state with
  | some body => .ok body
  | none => .error (.misplaced (.unsealedState state))

/-- The case over all states. Each of them has to be sealed; the first that is not is reported. -/
def case? (c : StateChart) (state : Expr .integer) : Except Fault CaseTable := do
  return .numbered state (← (List.range c.count).mapM c.sealedBody?)

end StateChart

end Stimulus
