import Stimulus.Statement.Basic

/-!
# Building statements

The checked ways to put statements together. Each of them splices the lists it is given and
refuses what must not stand inside it: event blocks nowhere, and script steps only inside
conditionals and loops, which a sequence knows how to take apart.

## Main definitions

* `checkChildren`, the rule
* `Statement.ofList`, `Statement.block?`, `Statement.onEvent?`, `Statement.repeat?`,
  `Statement.while?`, `Statement.for?`
* `Conditional` and `CaseTable`, which grow branch by branch and arm by arm
-/

namespace Stimulus

/-- Refuses event blocks below `owner` and, unless `steps` allows them, script steps. The first
offender decides, and an event block in it weighs more than a script step. -/
def checkChildren (owner : Owner) (steps : Bool) : List Statement → Except Fault Unit
  | [] => .ok ()
  | s :: rest =>
    if s.hasEventBlock then .error (.misplaced (.nestedEvent owner))
    else if !steps && s.hasScriptStep then .error (.misplaced (.scriptStepIn owner))
    else checkChildren owner steps rest

/-- The spliced children of `owner`, once they are checked. -/
def childrenOf (owner : Owner) (steps : Bool) (items : List Statement) :
    Except Fault (List Statement) := do
  let children := leavesOf items
  checkChildren owner steps children
  return children

namespace Statement

/-- Trusted text as a statement. -/
def raw (text : String) : Statement :=
  .command (.raw text)

/-- Several statements as one. -/
def ofList (items : List Statement) : Statement :=
  .list (leavesOf items)

/-- Several commands as one statement. -/
def ofCommands (commands : List Command) : Statement :=
  .list (commands.map .command)

/-- A block under a trusted head. -/
def block? (header : String) (items : List Statement) : Except Fault Statement := do
  return .block (.raw header) (← childrenOf .block false items)

/-- A block that runs when an event happens. -/
def onEvent? (event : Event) (items : List Statement) : Except Fault Statement := do
  return .block (.onEvent event) (← childrenOf .eventBlock false items)

/-- A loop that runs a number of times. -/
def repeat? (count : Expr .integer) (items : List Statement) : Except Fault Statement := do
  return .block (.repeatLoop count) (← childrenOf .repeatLoop true items)

/-- A loop that runs while a condition holds. -/
def while? (condition : Expr .bool) (items : List Statement) : Except Fault Statement := do
  return .block (.whileLoop condition) (← childrenOf .whileLoop true items)

/-- A loop with an initialiser and a step, both of which have to be single commands. -/
def for? (start : Statement) (condition : Expr .bool) (next : Statement)
    (items : List Statement) : Except Fault Statement :=
  match start, next with
  | .command start, .command next => do
    return .block (.forLoop start condition next) (← childrenOf .forLoop true items)
  | _, _ => .error (.misplaced .forHeader)

/-- A wait of a number of microseconds. -/
def wait (microseconds : Expr .real) : Statement :=
  .step (.delay microseconds)

/-- A wait for an event. -/
def waitFor (event : Event) : Statement :=
  .step (.signal event)

end Statement

/-- A conditional under construction. -/
structure Conditional where
  condition : Expr .bool
  thenBranch : List Statement
  elseBranch : List Statement

namespace Conditional

/-- A conditional without an alternative. -/
def new? (condition : Expr .bool) (items : List Statement) : Except Fault Conditional := do
  return ⟨condition, ← childrenOf .thenBranch true items, []⟩

/-- Gives a conditional its alternative, in place of the one it may have had. -/
def otherwise? (c : Conditional) (items : List Statement) : Except Fault Conditional := do
  return { c with elseBranch := ← childrenOf .elseBranch true items }

/-- The conditional as a statement. -/
def statement (c : Conditional) : Statement :=
  .branch c.condition c.thenBranch c.elseBranch

end Conditional

/-- A case under construction. -/
structure CaseTable where
  scrutinee : Value
  arms : List Arm

namespace CaseTable

/-- A case without arms. -/
def new (scrutinee : Value) : CaseTable :=
  ⟨scrutinee, []⟩

/-- Adds an arm. Its label has to be of the kind of the scrutinee. -/
def arm? (c : CaseTable) (label : Value) (items : List Statement) : Except Fault CaseTable := do
  if label.kind ≠ c.scrutinee.kind then
    .error (.kindMismatch .caseLabel c.scrutinee.kind label.kind)
  else
    let body ← childrenOf .caseArm false items
    return { c with arms := c.arms ++ [.mk (some label) body] }

/-- Adds the arm that is taken when no label fits. There is at most one. -/
def defaultArm? (c : CaseTable) (items : List Statement) : Except Fault CaseTable := do
  if c.arms.any (·.label.isNone) then .error (.misplaced .duplicateDefault)
  else
    let body ← childrenOf .caseArm false items
    return { c with arms := c.arms ++ [.mk none body] }

/-- The case as a statement. -/
def statement (c : CaseTable) : Statement :=
  .select c.scrutinee c.arms

/-- A case over the numbers from 0 on, with one arm for each of the given bodies in turn. -/
def numbered (scrutinee : Expr .integer) (bodies : List (List Statement)) : CaseTable :=
  ⟨⟨_, scrutinee⟩,
    bodies.zipIdx.map fun (body, n) => .mk (some ⟨_, .integer n⟩) (leavesOf body)⟩

end CaseTable

end Stimulus
