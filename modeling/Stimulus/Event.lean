import Stimulus.Expr.Build
import Stimulus.Expr.Text

/-!
# Events

An **event** is a moment the simulator has to hit exactly: a signal crosses or exceeds a
threshold, a timer expires, an analysis starts or ends, or any of several such things happens.

An expression tolerance makes sense only beside a time tolerance, and a timer's tolerance only
beside a period. The types leave no room for the other combinations; the readers of loose
arguments, `Tolerances.ofOptions?` and `Schedule.ofOptions?`, refuse them.

## Main definitions

* `Event`, with `Event.text` and `Event.needsRounding`
* `Crossing.difference`, the quantity whose sign an event watches
* `Event.cross?`: a crossing with its edge given by name
-/

namespace Stimulus

/-! ### Edges -/

/-- The direction in which a signal crosses its threshold. -/
inductive Edge where
  | rising
  | falling
  | both
  deriving DecidableEq, Repr

namespace Edge

/-- The number that stands for an edge in an event. -/
def code : Edge → Int
  | .rising => 1
  | .falling => -1
  | .both => 0

/-- The words for the edges. -/
def vocabulary : Vocabulary Edge :=
  ⟨"edge", [("rising", .rising), ("falling", .falling), ("both", .both)]⟩

/-- Reads the word for an edge. -/
def read? (word : String) : Except Fault Edge :=
  vocabulary.read? word

end Edge

/-! ### Crossings and timers -/

/-- How closely a crossing has to be located. -/
inductive Tolerances where
  | none
  | time (time : Expr .real)
  | both (time expression : Expr .real)

namespace Tolerances

/-- Reads two optional tolerances of a crossing, or of a level if `above`. -/
def ofOptions? (above : Bool) : (time expression : Option (Expr .real)) → Except Fault Tolerances
  | .none, .none => .ok .none
  | some t, .none => .ok (.time t)
  | some t, some e => .ok (.both t e)
  | .none, some _ => .error (.missing (.timeTolerance above))

/-- The tolerances in the order in which they are written. -/
def toList : Tolerances → List (Expr .real)
  | none => []
  | time t => [t]
  | both t e => [t, e]

end Tolerances

/-- A signal, the threshold it is compared with, and how closely. -/
structure Crossing where
  signal : Expr .real
  threshold : Expr .real
  tolerances : Tolerances

namespace Crossing

/-- The difference whose sign tells the signal from its threshold. Each side is put in parentheses
if it has an operator that binds no tighter than the difference does. -/
def difference (c : Crossing) : String :=
  c.signal.textIn Grouping.minuend ++ " - " ++ c.threshold.textIn Grouping.subtrahend

/-- The tolerances as further arguments. -/
def toleranceText (c : Crossing) : String :=
  String.join (c.tolerances.toList.map fun t => ", " ++ t.text)

/-- Whether the rounding function is called. -/
def needsRounding (c : Crossing) : Bool :=
  c.signal.needsRounding || c.threshold.needsRounding
    || c.tolerances.toList.any (·.needsRounding)

end Crossing

/-- Whether a timer expires again after its first time. -/
inductive Schedule where
  | once
  | every (period : Expr .real) (tolerance : Option (Expr .real))

namespace Schedule

/-- Reads an optional period and an optional tolerance of a timer. -/
def ofOptions? : (period tolerance : Option (Expr .real)) → Except Fault Schedule
  | none, none => .ok .once
  | some p, tolerance => .ok (.every p tolerance)
  | none, some _ => .error (.missing .period)

/-- The arguments of a timer after its first time. -/
def toList : Schedule → List (Expr .real)
  | once => []
  | every p none => [p]
  | every p (some t) => [p, t]

end Schedule

/-! ### Events -/

/-- What an event block or a signal wait waits for. -/
inductive Event where
  | cross (crossing : Crossing) (edge : Edge)
  /-- The signal is above its threshold, be it from the first time step on. -/
  | above (crossing : Crossing)
  | timer (start : Expr .real) (schedule : Schedule)
  | initialStep (types : List Analysis)
  | finalStep (types : List Analysis)
  | or (a b : Event)

namespace Event

/-- An event that a step of the listed analyses causes, or of every analysis if none is listed. -/
def stepText (name : String) (types : List Analysis) : String :=
  if types.isEmpty then name else name ++ "(" ++ Analysis.arguments types ++ ")"

/-- The text of an event. -/
def text : Event → String
  | cross c edge =>
    "cross(" ++ c.difference ++ ", " ++ Literal.integer edge.code ++ c.toleranceText ++ ")"
  | above c => "above(" ++ c.difference ++ c.toleranceText ++ ")"
  | timer start schedule => Expr.callText "timer" ((start :: schedule.toList).map (·.text))
  | initialStep types => stepText "initial_step" types
  | finalStep types => stepText "final_step" types
  | or a b => a.text ++ " or " ++ b.text

/-- Whether the rounding function is called. -/
def needsRounding : Event → Bool
  | cross c _ => c.needsRounding
  | above c => c.needsRounding
  | timer start schedule => start.needsRounding || schedule.toList.any (·.needsRounding)
  | initialStep _ => false
  | finalStep _ => false
  | or a b => a.needsRounding || b.needsRounding

/-- A timer that expires once. -/
def after (start : Expr .real) : Event :=
  timer start .once

/-- A crossing whose edge is given by name, with a list of at most two tolerances: the time
tolerance and then the expression tolerance. -/
def cross? (signal threshold : Expr .real) (edge : String) (tolerances : List (Expr .real)) :
    Except Fault Event := do
  let edge ← Edge.read? edge
  match tolerances with
  | [] => return cross ⟨signal, threshold, .none⟩ edge
  | [t] => return cross ⟨signal, threshold, .time t⟩ edge
  | [t, e] => return cross ⟨signal, threshold, .both t e⟩ edge
  | more => .error (.outOfRange (.crossTolerances more.length))

end Event

end Stimulus
