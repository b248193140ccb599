import Stimulus.Options
import Stimulus.Toml.Document

/-!
# Options files

Options are read from a TOML file. An option that the file does not name keeps its standard value,
and names that stand for no option are passed over, though the numbers under them still have to fit
a machine number.

## Main definitions

* `Options.parse?`, the options in the text of a file
* `Options.ofToml?`, `DeviceDefaults.ofToml?`, `Stamp.ofToml?`
-/

namespace Stimulus

open Toml

/-- The number in a value. An integer of 64 bits, with or without a sign, counts as the nearest
binary64 number. -/
def floatOfToml? : Toml.Value → Option Float
  | .float x => x.toFloat?
  | .integer n =>
    if Word.fits 64 n then (FloatLiteral.decimal (n < 0) n.natAbs 0).toFloat? else none
  | _ => none

/-- The word `now`, also as a field without content, or a fixed text. -/
def Stamp.ofToml? : Toml.Value → Option Stamp
  | .text "now" => some .now
  | .table _ [("now", .table _ [])] => some .now
  | .table _ [("now", .array _ [])] => some .now
  | .table _ [("fixed", .text content)] => some (.fixed content)
  | _ => none

namespace DeviceDefaults

/-- The names of the defaults, in their order. -/
def names : List String :=
  ["rise_time", "fall_time", "series_resistance", "input_capacitance", "smu_gain",
    "smu_capacitance"]

/-- Sets the default with a given name. -/
def set? (d : DeviceDefaults) (name : String) (value : Toml.Value) : Option DeviceDefaults :=
  match name with
  | "rise_time" => return { d with riseTime := ← floatOfToml? value }
  | "fall_time" => return { d with fallTime := ← floatOfToml? value }
  | "series_resistance" => return { d with seriesResistance := ← floatOfToml? value }
  | "input_capacitance" => return { d with inputCapacitance := ← floatOfToml? value }
  | "smu_gain" => return { d with smuGain := ← floatOfToml? value }
  | "smu_capacitance" => return { d with smuCapacitance := ← floatOfToml? value }
  | _ => if value.inRange then some d else none

/-- The defaults that a table holds under their names, or an array in their order. A moment counts
as a table without any of these names. -/
def ofToml? : Toml.Value → Option DeviceDefaults
  | .table _ fields => fields.foldlM (fun d (name, value) => d.set? name value) standard
  | .array _ items => (names.zip items).foldlM (fun d (name, value) => d.set? name value) standard
  | .moment _ => some standard
  | _ => none

end DeviceDefaults

namespace Options

/-- Sets the option with a given name. -/
def set? (o : Options) (name : String) (value : Toml.Value) : Option Options :=
  match name, value with
  | "wrap_column", .integer n =>
    if Word.fitsUnsigned 64 n then some { o with wrapColumn := n.toNat } else none
  | "wrap_column", _ => none
  | "timer_tolerance", value => return { o with timerTolerance := some (← floatOfToml? value) }
  | "header", value => return { o with header := ← Stamp.ofToml? value }
  | "devices", value => return { o with devices := ← DeviceDefaults.ofToml? value }
  | _, value => if value.inRange then some o else none

/-- The options that a table holds. -/
def ofToml? (fields : Fields) : Option Options :=
  fields.foldlM (fun o (name, value) => o.set? name value) standard

/-- The options in the text of a file. -/
def parse? (text : String) : Option Options := do
  ofToml? (← Document.parse? text)

end Options

end Stimulus
