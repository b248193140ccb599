import Stimulus.Command
import Stimulus.Event

/-!
# Statements

Statements form trees. A **head** (a loop, an event, or trusted text) governs a list of
statements, a conditional governs two and a case as many as it has arms. **Script steps** (waits
and marks) make sense only in the script of a sequence, where they may stand inside conditionals
and loops.

A list of statements is itself a statement, so that several can be handed over as one. Lists are
spliced into whatever contains them: `leaves` is the view in which they are gone.

## Main definitions

* `Statement`, `Head`, `Arm`, `ScriptStep`
* `leaves` and `Statement.isEmpty`
* `Statement.anyNode`, whether some node of a tree has a property, and its uses
  `Statement.hasEventBlock`, `Statement.hasScriptStep`, `Statement.hasCase` and
  `Statement.needsRounding`
-/

namespace Stimulus

/-- What governs a block of statements. -/
inductive Head where
  /-- Text that is trusted to be the head of a block. -/
  | raw (text : String)
  | onEvent (event : Event)
  | repeatLoop (count : Expr .integer)
  | whileLoop (condition : Expr .bool)
  | forLoop (start : Command) (condition : Expr .bool) (next : Command)

/-- The statements of a script that are not statements of the modelling language. -/
inductive ScriptStep where
  /-- Waits for a number of microseconds. -/
  | delay (microseconds : Expr .real)
  /-- Waits for an event. -/
  | signal (event : Event)
  /-- Toggles the variable of a marker; the label says what happens at this moment. -/
  | mark (state : Variable .bool) (label : String)

mutual

/-- Statements. -/
inductive Statement where
  | command (c : Command)
  | list (items : List Statement)
  | block (head : Head) (body : List Statement)
  | branch (condition : Expr .bool) (thenBranch elseBranch : List Statement)
  | select (scrutinee : Value) (arms : List Arm)
  | step (s : ScriptStep)

/-- An arm of a case. The arm without a label is taken when no label fits. -/
inductive Arm where
  | mk (label : Option Value) (body : List Statement)

end

/-- The label of an arm. -/
def Arm.label : Arm → Option Value
  | .mk label _ => label

/-- The statements of an arm. -/
def Arm.body : Arm → List Statement
  | .mk _ body => body

/-! ### Splicing -/

mutual

/-- The statements that a statement stands for once lists are spliced. -/
def Statement.leaves : Statement → List Statement
  | .list items => leavesOf items
  | s => [s]

/-- A list of statements with all lists in it spliced. -/
def leavesOf : List Statement → List Statement
  | [] => []
  | s :: rest => s.leaves ++ leavesOf rest

end

/-- A statement is empty if no leaf is left of it. -/
def Statement.isEmpty (s : Statement) : Bool :=
  s.leaves.isEmpty

/-! ### Searching -/

mutual

/-- Whether a node of the tree has the property `p`. -/
def Statement.anyNode (p : Statement → Bool) : Statement → Bool
  | .command c => p (.command c)
  | .list items => p (.list items) || anyNodeOf p items
  | .block head body => p (.block head body) || anyNodeOf p body
  | .branch c yes no => p (.branch c yes no) || anyNodeOf p yes || anyNodeOf p no
  | .select v arms => p (.select v arms) || anyNodeOfArms p arms
  | .step s => p (.step s)

/-- Whether a node of one of the trees has the property `p`. -/
def anyNodeOf (p : Statement → Bool) : List Statement → Bool
  | [] => false
  | s :: rest => s.anyNode p || anyNodeOf p rest

/-- Whether a node in one of the arms has the property `p`. -/
def anyNodeOfArms (p : Statement → Bool) : List Arm → Bool
  | [] => false
  | .mk _ body :: rest => anyNodeOf p body || anyNodeOfArms p rest

end

/-- Whether the rounding function is called. -/
def Head.needsRounding : Head → Bool
  | .raw _ => false
  | .onEvent event => event.needsRounding
  | .repeatLoop count => count.needsRounding
  | .whileLoop condition => condition.needsRounding
  | .forLoop start condition next =>
    start.needsRounding || condition.needsRounding || next.needsRounding

/-- Whether the rounding function is called. -/
def ScriptStep.needsRounding : ScriptStep → Bool
  | .delay microseconds => microseconds.needsRounding
  | .signal event => event.needsRounding
  | .mark .. => false

namespace Statement

/-- An event block. -/
def isEventBlock : Statement → Bool
  | .block (.onEvent _) _ => true
  | _ => false

/-- A script step. -/
def isScriptStep : Statement → Bool
  | .step _ => true
  | _ => false

/-- A case. -/
def isCase : Statement → Bool
  | .select .. => true
  | _ => false

/-- Whether the node itself, leaving out the statements it governs, calls the rounding function. -/
def nodeNeedsRounding : Statement → Bool
  | .command c => c.needsRounding
  | .list _ => false
  | .block head _ => head.needsRounding
  | .branch condition _ _ => condition.needsRounding
  | .select scrutinee arms =>
    scrutinee.needsRounding || arms.any fun arm => arm.label.any (·.needsRounding)
  | .step s => s.needsRounding

/-- Whether there is an event block anywhere in the tree. -/
def hasEventBlock (s : Statement) : Bool :=
  s.anyNode isEventBlock

/-- Whether there is a script step anywhere in the tree. -/
def hasScriptStep (s : Statement) : Bool :=
  s.anyNode isScriptStep

/-- Whether there is a case anywhere in the tree. -/
def hasCase (s : Statement) : Bool :=
  s.anyNode isCase

/-- Whether the rounding function is called anywhere in the tree. -/
def needsRounding (s : Statement) : Bool :=
  s.anyNode nodeNeedsRounding

end Statement

end Stimulus
