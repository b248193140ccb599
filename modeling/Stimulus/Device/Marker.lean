import Stimulus.Device.Basic

/-!
# Markers

A marker is an output that changes its level at the moments of interest, each of which has a
label. For a marker's labels there are two **side files**, which tell the tools that look at the
results where each moment is: the `n`-th label belongs to the `n`-th crossing of the output.

## Main definitions

* `Marker`, `Module.marker`, `Marker.mark`
* `Marker.measurements`, lines with seven fields
* `Marker.outputCalls`, lines with one call each
-/

namespace Stimulus

/-- A marker and the labels of its toggles so far. -/
structure Marker where
  tag : String
  port : Net
  state : Variable .bool
  labels : List String
  deriving DecidableEq, Repr

/-- How long a marker's output takes to change, in seconds. -/
def Marker.edgeTime : Float :=
  1e-10

/-- Installs a marker. Its tag becomes a part of its names. -/
def Module.marker (tag : String) : Build Marker := do
  let port ← Module.net ("MARK_" ++ tag) .output
  let state ← Module.namedVariable ("_$markSt_" ++ tag) (.bool false)
  Module.contribute (.potential port)
    (.transition (.indicator state.expr) (.real 0.0) (.real Marker.edgeTime)
      (.real Marker.edgeTime))
  modify fun m => { m with markers := m.markers ++ [tag] }
  return ⟨tag, port, state, []⟩

namespace Marker

/-- Marks a moment of a script. -/
def mark (m : Marker) (label : String) : Statement × Marker :=
  (.step (.mark m.state label), { m with labels := m.labels ++ [label] })

/-- The expression for the `n`-th crossing of the marker's output. -/
def crossing (m : Marker) (n : Nat) : String :=
  "cross(getData(\"/" ++ m.port.name ++ "\" ?result \"tran\") 0.5 " ++ toString n
    ++ " \"either\" nil nil)"

/-- The name of the measurement for a label. -/
def measurementName (m : Marker) (label : String) : String :=
  m.tag ++ "_" ++ label

/-- The labels with their numbers, counted from 1. -/
def numbered (m : Marker) : List (String × Nat) :=
  m.labels.zipIdx 1

/-- The measurement of a label as a line of comma-separated fields. -/
def measurement (m : Marker) (label : String) (n : Nat) : String :=
  m.tag ++ "," ++ m.measurementName label ++ ",expr," ++ m.crossing n ++ ",t,,"

/-- The measurements of all labels. -/
def measurements (m : Marker) : List String :=
  m.numbered.map fun (label, n) => m.measurement label n

/-- A text with a backslash in front of every quote. -/
def escapeQuotes (text : String) : String :=
  String.ofList (text.toList.flatMap fun c => if c = '"' then ['\\', '"'] else [c])

/-- The measurement of a label as a call that adds an output expression. -/
def outputCall (m : Marker) (label : String) (n : Nat) : String :=
  "axlAddOutputExpr(session \"" ++ m.tag ++ "\" \"" ++ m.measurementName label
    ++ "\" ?expr \"" ++ escapeQuotes (m.crossing n) ++ "\" ?plot t)"

/-- The calls for all labels. -/
def outputCalls (m : Marker) : List String :=
  m.numbered.map fun (label, n) => m.outputCall label n

end Marker

end Stimulus
