import Stimulus.Fault
import Stimulus.Text.Basic

/-!
# Analyses

The simulator runs a module under one **analysis** at a time. Conditions and step events can be
limited to some of them by name.
-/

namespace Stimulus

/-- The analyses a module can ask about. -/
inductive Analysis where
  | ac
  | dc
  | ic
  | static
  | tran
  | pac
  | pnoise
  | pss
  | pxf
  | sp
  | tdr
  | xf
  deriving DecidableEq, Repr

namespace Analysis

/-- The simulator's name of an analysis. -/
def name : Analysis → String
  | .ac => "ac"
  | .dc => "dc"
  | .ic => "ic"
  | .static => "static"
  | .tran => "tran"
  | .pac => "pac"
  | .pnoise => "pnoise"
  | .pss => "pss"
  | .pxf => "pxf"
  | .sp => "sp"
  | .tdr => "tdr"
  | .xf => "xf"

/-- All analyses, in the order in which they are listed to the user. -/
def all : List Analysis :=
  [.ac, .dc, .ic, .static, .tran, .pac, .pnoise, .pss, .pxf, .sp, .tdr, .xf]

/-- The names of all analyses. -/
def vocabulary : Vocabulary Analysis :=
  ⟨"analysis type", all.map fun a => (a.name, a)⟩

/-- Reads the name of an analysis. -/
def read? (word : String) : Except Fault Analysis :=
  vocabulary.read? word

/-- The names as they stand between the parentheses of a call. -/
def arguments (types : List Analysis) : String :=
  String.intercalate ", " (types.map fun a => Text.quote a.name)

end Analysis

end Stimulus
