import Stimulus.Module.Basic

/-!
# Flows

A sequence runs as a **flow** of states. Each state does some work and then ends in one of five
ways: it waits for the timer or for an event, goes on to another state in the same time step,
chooses between two states, or finishes the simulation.

The states of a flow are numbered by their positions, so every state up to the last exists exactly
once.

## Main definitions

* `Sequence.Tail`, `Sequence.State`, `Sequence.Flow`
* `Sequence.Tail.statements`, `Sequence.State.statements`: what a state does, as statements
-/

namespace Stimulus.Sequence

/-- How a state ends. Targets are positions in the flow. -/
inductive Tail where
  /-- Waits for a number of seconds. -/
  | delay (seconds : Expr .real) (next : Nat)
  /-- Waits for the event with a given number. -/
  | signal (number next : Nat)
  | jump (next : Nat)
  | branch (condition : Expr .bool) (yes no : Nat)
  | finish

/-- What a state does before its tail. -/
inductive Work where
  /-- A statement of the script. -/
  | placed (s : Statement)
  /-- A change of the counter of a loop. -/
  | counting (c : Command)

/-- A state of a flow. -/
structure State where
  work : List Work
  tail : Tail

/-- The states of a sequence, state 0 first. -/
abbrev Flow := List State

/-- A piece of work as a statement. -/
def Work.statement : Work → Statement
  | .placed s => s
  | .counting c => .command c

/-- The command that makes `target` the next state. -/
def goto (control : SequenceControl) (target : Nat) : Statement :=
  .command (control.state.assign (.integer target))

/-- The command that lets the sequence run on in the same time step. -/
def runOn (control : SequenceControl) : Statement :=
  .command (control.running.assign (.bool true))

/-- The command that makes the sequence wait for the event with a given number. -/
def awaitEvent (control : SequenceControl) (number : Nat) : Statement :=
  .command (control.event.assign (.integer number))

/-- The statements of a tail. A tail that waits does not let the sequence run on. -/
def Tail.statements (control : SequenceControl) : Tail → List Statement
  | .delay seconds next =>
    [awaitEvent control 0, goto control next,
      .command (control.time.assign (Expr.now.add seconds))]
  | .signal number next => [awaitEvent control number, goto control next]
  | .jump next => [runOn control, goto control next]
  | .branch condition yes no =>
    [runOn control, .branch condition [goto control yes] [goto control no]]
  | .finish => [.command .finish]

/-- The statements of a state. -/
def State.statements (control : SequenceControl) (s : State) : List Statement :=
  s.work.map (·.statement) ++ s.tail.statements control

/-- The case that runs the current state of a flow. -/
def Flow.case (control : SequenceControl) (flow : Flow) : CaseTable :=
  .numbered control.state.expr (flow.map (·.statements control))

end Stimulus.Sequence
