import Stimulus.Variable

/-!
# Commands

A **command** is a statement that takes one line: an assignment, a contribution to a branch or a
call of a system task.

## Main definitions

* `Command`, with `Command.text` and `Command.needsRounding`
* `Variable.assign` and its relatives, the commands that change a variable
* `AnyVariable.assign?`, which checks that the kinds agree
-/

namespace Stimulus

/-- The tasks that print a formatted line, now or at the end of the time step. -/
inductive PrintTask where
  | strobe
  | display
  | write
  deriving DecidableEq, Repr

/-- The word for a printing task. -/
def PrintTask.name : PrintTask → String
  | .strobe => "strobe"
  | .display => "display"
  | .write => "write"

/-- Statements of one line. -/
inductive Command where
  /-- Text that is trusted to be a statement. -/
  | raw (text : String)
  | assign (target : String) (value : Value)
  | increment (target : String)
  | decrement (target : String)
  | toggle (target : String)
  | contribute (branch : Branch) (value : Expr .real)
  /-- Prints to the log, or to a file if there is one. -/
  | print (task : PrintTask) (file : Option (Expr .integer)) (format : String)
      (arguments : List Value)
  | closeFile (file : Expr .integer)
  | finish
  | stop
  | discontinuity (order : Int)
  | boundStep (step : Expr .real)

namespace Command

/-- The text of a command, without the semicolon that ends it. -/
def text : Command → String
  | raw text => text
  | assign target value => target ++ " = " ++ value.text
  | increment target => target ++ " = " ++ target ++ " + 1"
  | decrement target => target ++ " = " ++ target ++ " - 1"
  | toggle target => target ++ " = !" ++ target
  | contribute branch value => branch.text ++ " <+ " ++ value.text
  | print task none format arguments =>
    Expr.callText ("$" ++ task.name) (Text.quote format :: arguments.map (·.text))
  | print task (some file) format arguments =>
    Expr.callText ("$f" ++ task.name)
      (file.text :: Text.quote format :: arguments.map (·.text))
  | closeFile file => Expr.callText "$fclose" [file.text]
  | finish => "$finish"
  | stop => "$stop"
  | discontinuity order => Expr.callText "$discontinuity" [Literal.integer order]
  | boundStep step => Expr.callText "$bound_step" [step.text]

/-- Whether the rounding function is called. -/
def needsRounding : Command → Bool
  | raw _ => false
  | assign _ value => value.needsRounding
  | increment _ => false
  | decrement _ => false
  | toggle _ => false
  | contribute _ value => value.needsRounding
  | print _ file _ arguments =>
    file.any (·.needsRounding) || arguments.any (·.needsRounding)
  | closeFile file => file.needsRounding
  | finish => false
  | stop => false
  | discontinuity _ => false
  | boundStep step => step.needsRounding

end Command

/-- Gives a variable a new value of its own kind. -/
def Variable.assign {k : Kind} (v : Variable k) (value : Expr k) : Command :=
  .assign v.name ⟨k, value⟩

/-- Adds one to an integer variable. -/
def Variable.increment (v : Variable .integer) : Command :=
  .increment v.name

/-- Takes one from an integer variable. -/
def Variable.decrement (v : Variable .integer) : Command :=
  .decrement v.name

/-- Replaces a bool variable by its opposite. -/
def Variable.toggle (v : Variable .bool) : Command :=
  .toggle v.name

/-- Gives a variable a new value, which has to be of its kind. -/
def AnyVariable.assign? (v : AnyVariable) (value : Value) : Except Fault Command :=
  if value.kind = v.kind then .ok (.assign v.name value)
  else .error (.kindMismatch (.assignment v.name) v.kind value.kind)

/-- A contribution to a branch. -/
def Branch.contribute (branch : Branch) (value : Expr .real) : Command :=
  .contribute branch value

end Stimulus
