import Stimulus.Device.Marker
import Stimulus.Module.Text

/-!
# Benches

A **bench** is a module that comes ready made. It is built under the user's options and written to
a few files: the module itself and, if it has markers, the side files of these.

## Main definitions

* `Bench`, `Bench.build`
* `Generated.files?`, the names and contents of the files
-/

namespace Stimulus

/-- A bench: construction steps that fill a module of the same name and return its markers. -/
structure Bench where
  name : String
  description : String
  steps : Build (List Marker)

/-- A module that has been built, with its markers. -/
structure Generated where
  module : Module
  markers : List Marker

/-- Builds a bench at a moment whose text is `present`. -/
def Bench.build (b : Bench) (options : Options) (present : String) : Except Fault Generated := do
  match b.steps (← Module.new? options present b.name) with
  | .ok markers module => return ⟨module, markers⟩
  | .error f _ => .error f

/-- A text of lines, each of which is ended. -/
def endLines (lines : List String) : String :=
  String.intercalate "\n" lines ++ "\n"

/-- The files that are written for a module. -/
def Generated.files? (g : Generated) : Except Fault (List (String × String)) := do
  let text ← g.module.emit?
  let main := (g.module.name ++ ".va", text)
  if g.markers.isEmpty then return [main]
  else
    return [main,
      (g.module.name ++ "_markers.csv", endLines (g.markers.flatMap (·.measurements))),
      (g.module.name ++ "_markers.ocn", endLines (g.markers.flatMap (·.outputCalls)))]

end Stimulus
