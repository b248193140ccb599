import Stimulus.Sequence.Compile
import Stimulus.StateChart

/-!
# Drafts of state charts

Compilation can also be told as the growth of a state chart. A **draft** is a chart together with
the state that is open and the statements that are pending for it. A script is gone through once;
states are allocated when their numbers are needed, and each is sealed when the script has passed
it: the head of a conditional after its branches, the test of a loop after its body.

Sealing is checked. A state that was not allocated, or that is sealed already, is refused, and a
chart with a state that is not sealed does not become a case.

## Main definitions

* `Draft`, `Draft.add`, `Draft.addAll`, `Draft.finish`
* `Module.draftedSequence`, a sequence compiled by way of a draft
-/

namespace Stimulus

namespace Sequence

/-- A state chart in the making, with the statements that are pending for its open state. -/
structure Draft where
  chart : StateChart
  current : Nat
  pending : List Statement

/-- The command sequence of a tail that chooses between two states. -/
def choice (control : SequenceControl) (condition : Expr .bool) (yes no : Nat) :
    Build (List Statement) := do
  let c ← Build.ofExcept (Conditional.new? condition [goto control yes])
  let c ← Build.ofExcept (c.otherwise? [goto control no])
  return [runOn control, c.statement]

namespace Draft

/-- The draft of a script of which nothing has been read yet. -/
def start : Draft :=
  ⟨.start, StateChart.entry, []⟩

/-- Allocates the next state. -/
def allocate (d : Draft) : Nat × Draft :=
  let (state, chart) := d.chart.allocate
  (state, { d with chart })

/-- Opens a state. -/
def moveTo (d : Draft) (state : Nat) : Draft :=
  { d with current := state }

/-- Adds statements to those that are pending. -/
def push (d : Draft) (more : List Statement) : Draft :=
  { d with pending := d.pending ++ more }

/-- Takes what is pending out of the draft. -/
def clear (d : Draft) : Draft :=
  { d with pending := [] }

/-- Fixes the statements of a state. -/
def sealState (d : Draft) (state : Nat) (body : List Statement) : Build Draft := do
  let chart ← Build.ofExcept (d.chart.seal? state body)
  return { d with chart }

/-- Seals the open state with what is pending and with a tail. -/
def close (d : Draft) (tail : List Statement) : Build Draft :=
  d.clear.sealState d.current (d.pending ++ tail)

section Control

variable (control : SequenceControl)

/-- Closes the open state with a wait, which ends in a new state. -/
def wait (d : Draft) (tail : Nat → Tail) : Build Draft := do
  let (next, d) := d.allocate
  let d ← d.close ((tail next).statements control)
  return d.moveTo next

/-- A loop. Its test is allocated before its body and sealed after it. -/
def loop (d : Draft) (prepare : List Statement) (condition : Expr .bool)
    (next : List Statement) (inside : Draft → Build Draft) : Build Draft := do
  let (test, d) := d.allocate
  let d ← (d.push prepare).close ((Tail.jump test).statements control)
  let (entry, d) := d.allocate
  let d ← inside (d.moveTo entry)
  let d ← (d.push next).close ((Tail.jump test).statements control)
  let (exit, d) := d.allocate
  let d ← d.sealState test (← choice control condition entry exit)
  return d.moveTo exit

/-- A branch of a conditional, which starts in a new state. The result is that state, the last one
of the branch and what is pending for that one. -/
def branch (d : Draft) (inside : Draft → Build Draft) :
    Build (Nat × (Nat × List Statement) × Draft) := do
  let (entry, d) := d.clear.allocate
  let d ← inside (d.moveTo entry)
  return (entry, (d.current, d.pending), d)

/-- The end of a conditional. All branches meet in a new state, and the head is sealed last. -/
def meet (d : Draft) (head : Nat) (before : List Statement) (condition : Expr .bool) (yes : Nat)
    (no : Option Nat) (tails : List (Nat × List Statement)) : Build Draft := do
  let (join, d) := d.clear.allocate
  let d ← tails.foldlM (fun d (state, body) =>
    d.sealState state (body ++ (Tail.jump join).statements control)) d
  let d ← d.sealState head (before ++ (← choice control condition yes (no.getD join)))
  return d.moveTo join

mutual

/-- Adds a statement of a script to a draft. -/
def add (d : Draft) : Statement → Build Draft
  | .command c => return d.push [.command c]
  | .list items => addAll d items
  | .step (.delay microseconds) =>
    d.wait control fun next => .delay (seconds microseconds) next
  | .step (.signal event) => do
    let number ← Module.registerSignal control.index event
    d.wait control fun next => .signal number next
  | .step (.mark state _) => return d.push [.command state.toggle]
  | .branch condition yes no => do
    let (entry, tail, e) ← d.branch fun d => addAll d yes
    if no.isEmpty then e.meet control d.current d.pending condition entry none [tail]
    else
      let (other, tail', e) ← e.branch fun d => addAll d no
      e.meet control d.current d.pending condition entry (some other) [tail, tail']
  | .block (.repeatLoop count) body => do
    let counter ← Module.anonymousVariable (.integer 0)
    let condition := Expr.comparison .lt (Comparison.definedOn_integer _) counter.expr count
    d.loop control [.command (counter.assign (.integer 0))] condition [.command counter.increment]
      fun d => addAll d body
  | .block (.whileLoop condition) body => d.loop control [] condition [] fun d => addAll d body
  | .block (.forLoop start condition next) body =>
    d.loop control [.command start] condition [.command next] fun d => addAll d body
  | .block (.raw header) body =>
    if anyNodeOf Statement.isCase body then Build.fail (.misplaced .caseInSequence)
    else return d.push [.block (.raw header) body]
  | .block (.onEvent _) body =>
    if anyNodeOf Statement.isCase body then Build.fail (.misplaced .caseInSequence)
    else Build.fail (.misplaced .eventInSequence)
  | .select _ _ => Build.fail (.misplaced .caseInSequence)

/-- Adds statements of a script to a draft, one after the other. -/
def addAll (d : Draft) : List Statement → Build Draft
  | [] => return d
  | s :: rest => do
    let d ← add d s
    addAll d rest

end

/-- Ends a script. What is pending gets a state of its own before the one that finishes. The
result is the state that finishes, and the draft. -/
def finish (d : Draft) : Build (Nat × Draft) :=
  if d.pending.isEmpty then return (d.current, ← d.close [.command .finish])
  else do
    let (last, d) := d.allocate
    let d ← d.close ((Tail.jump last).statements control)
    return (last, ← d.sealState last [.command .finish])

end Control

end Draft

end Sequence

/-- The block that drives a sequence when its timer expires. -/
def SequenceControl.driver? (c : SequenceControl) (tolerance : Option Float) :
    Except Fault Statement := do
  let schedule ← Schedule.ofOptions? (tolerance.map fun _ => .real 0.0) (tolerance.map .real)
  let resumed := Expr.comparison .eq (Comparison.definedOn_integer _) c.event.expr (.integer 0)
  let resume ← Conditional.new? resumed [.command (c.running.assign (.bool true))]
  Statement.onEvent? (.timer c.time.expr schedule) [resume.statement]

/-- Compiles a script into the module by way of a draft. -/
def Module.draftedSequence (guard : Expr .bool) (items : List Statement) :
    Build CompiledSequence := do
  let control : SequenceControl := ⟨(← get).sequences + 1⟩
  control.declare
  modify fun m => { m with sequences := control.index }
  let driver ← Build.ofExcept (control.driver? (← get).options.timerTolerance)
  modify fun m => { m with prologue := m.prologue ++ [.statement driver] }
  let draft ← Sequence.Draft.addAll control .start items
  let (finish, draft) ← draft.finish control
  let table ← Build.ofExcept (draft.chart.case? control.state.expr)
  let stopRunning := Statement.command (control.running.assign (.bool false))
  let loop ← Build.ofExcept (Statement.while? control.running.expr [stopRunning, table.statement])
  let guarded ← Build.ofExcept (Conditional.new? guard [loop])
  Module.addBody guarded.statement
  return ⟨control, draft.chart.count, finish⟩

end Stimulus
