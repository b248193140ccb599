import Stimulus.Module.Basic
import Stimulus.Statement.Text
import Stimulus.Text.Basic
import Stimulus.Text.Wrap

/-!
# The text of modules

A module is written part by part: a header, the declaration with its ports, their directions, the
disciplines of all nets, the rounding function if some command calls it, parameters, variables and
the analog block. The parts are divided by banners, and every line is wrapped softly.

The analog block starts with the initial values of the variables, once for static analyses and
once for the first step of a transient one, so that both start alike.

## Main definitions

* `Module.parts`, the text before wrapping
* `Module.emit?`, the text of a module that is not poisoned
-/

namespace Stimulus

/-- The range of a bus, written in front of its name; a net of width 1 has none. -/
def NetDeclaration.range (n : NetDeclaration) : String :=
  if 1 < n.width then "[" ++ toString (n.width - 1) ++ ":0] " else ""

/-- The text of a shared event block at a given depth. -/
def SharedEvent.render (depth : Nat) (b : SharedEvent) : String :=
  Layout.block depth false (Head.onEvent b.event).text (renderEach (depth + 1) b.clauses)

/-- The text of an item of the prologue at a given depth. -/
def PrologueItem.render (depth : Nat) : PrologueItem → String
  | .statement s => s.render depth
  | .shared b => b.render depth

/-- Whether the rounding function is called. -/
def PrologueItem.needsRounding : PrologueItem → Bool
  | .statement s => s.needsRounding
  | .shared b => b.event.needsRounding || b.clauses.any (·.needsRounding)

namespace Module

/-- Whether a command of the module calls the rounding function. -/
def needsRounding (m : Module) : Bool :=
  m.initialisation.any (·.needsRounding) || m.prologue.any (·.needsRounding)
    || m.body.any (·.needsRounding) || m.epilogue.any (·.needsRounding)

/-- What the header says has made the module. -/
def generator : String :=
  "vaforge 0.4.0"

/-- The header: who made the module and when, and the definitions it includes. -/
def headerPart (m : Module) : String :=
  Text.rule
    ++ Text.boxed ("Verilog-A module `" ++ m.name ++ "` generated by " ++ generator)
    ++ Text.boxed m.stamp
    ++ Text.rule
    ++ "`include \"constants.vams\"\n"
    ++ "`include \"disciplines.vams\"\n"

/-- A part that starts with a blank line and a banner. -/
def part (title content : String) : String :=
  "\n" ++ Text.banner title ++ content

/-- The module's name and its ports, one on a line. -/
def declarationPart (m : Module) : String :=
  let head := "module " ++ m.name ++ "("
  let separator := ",\n" ++ Text.run head.length ' '
  part "Module declaration"
    (head ++ String.intercalate separator (m.ports.map (·.name)) ++ ");\n")

/-- The direction and the range of a port. -/
def portLine (n : NetDeclaration) : String :=
  match n.direction.keyword? with
  | some keyword => keyword ++ " " ++ n.range ++ n.name ++ ";\n"
  | none => ""

/-- The directions of the ports. -/
def portsPart (m : Module) : String :=
  part "Ports" (String.join (m.ports.map portLine))

/-- The discipline and the range of a net. -/
def disciplineLine (n : NetDeclaration) : String :=
  "electrical " ++ n.range ++ n.name ++ ";\n"

/-- The disciplines of all nets. -/
def disciplinesPart (m : Module) : String :=
  part "Disciplines" (String.join (m.nets.map disciplineLine))

/-- The definition of the rounding function. -/
def roundingFunction : String :=
  "analog function integer _rtoi;\n"
    ++ "input in; real in;\n"
    ++ "begin _rtoi = floor(in + 0.5); end\n"
    ++ "endfunction\n"

/-- The rounding function, if it is called. -/
def functionsPart (m : Module) : String :=
  if m.needsRounding then part "Build-in functions" roundingFunction else ""

/-- The declaration of a parameter. -/
def parameterLine (p : ParameterDeclaration) : String :=
  "parameter " ++ p.default.kind.keyword ++ " " ++ p.name ++ " = " ++ p.default.text ++ ";\n"

/-- The parameters, if there are any. -/
def parametersPart (m : Module) : String :=
  if m.parameters.isEmpty then ""
  else part "Parameters" (String.join (m.parameters.map parameterLine))

/-- The declaration of a variable. -/
def variableLine (v : VariableDeclaration) : String :=
  v.initial.kind.keyword ++ " " ++ v.name ++ ";\n"

/-- The variables, if there are any. -/
def variablesPart (m : Module) : String :=
  if m.declaredVariables.isEmpty then ""
  else part "Variables" (String.join (m.declaredVariables.map variableLine))

/-- The initial values of the variables under a given head. -/
def initialisationBlock (m : Module) (header : String) : String :=
  Layout.block 1 false header (renderEach 2 (m.initialisation.map .command))

/-- The head under which the initial values are set in static analyses. -/
def staticHeader : String :=
  "if( " ++ (Expr.analysis [.static]).text ++ " )"

/-- The head under which the initial values are set when a transient analysis starts. -/
def transientHeader : String :=
  (Head.onEvent (.initialStep [.tran])).text

/-- The initial values, set for both kinds of analysis, if there are any. -/
def initialisationPart (m : Module) : String :=
  if m.initialisation.isEmpty then ""
  else m.initialisationBlock staticHeader ++ m.initialisationBlock transientHeader

/-- The analog block. -/
def analogPart (m : Module) : String :=
  part "Analog block"
    ("analog begin\n" ++ m.initialisationPart
      ++ String.join (m.prologue.map (·.render 1))
      ++ String.join (m.body.map (·.render 1))
      ++ String.join (m.epilogue.map (·.render 1))
      ++ "end\nendmodule\n")

/-- The parts of a module in the order in which they are written. -/
def parts (m : Module) : String :=
  m.headerPart ++ m.declarationPart ++ m.portsPart ++ m.disciplinesPart ++ m.functionsPart
    ++ m.parametersPart ++ m.variablesPart ++ m.analogPart

/-- The text of a module. A poisoned module has none. -/
def emit? (m : Module) : Except Fault String :=
  match m.fault with
  | some cause => .error (.poisoned m.name cause)
  | none =>
    .ok (String.intercalate "\n" ((Text.lines m.parts).map (Text.softWrap m.options.wrapColumn))
      ++ "\n")

end Module

end Stimulus
