import Stimulus.Statement.Build

/-!
# The text of statements

One rule lays out every block: a head without children ends in a semicolon, a single child stands
on the next line, and several children are enclosed in `begin` and `end`. Each level is indented by
four more blanks.

A conditional with an alternative encloses a lone child of its first branch too, unless the child
is of one line: the child could otherwise take the alternative for its own.

## Main definitions

* `Layout.block`, the rule for blocks
* `Statement.render`, the text of a statement at a given depth
-/

namespace Stimulus

namespace Layout

/-- The blanks in front of a line at a given depth. -/
def indent (depth : Nat) : String :=
  String.ofList (List.replicate (4 * depth) ' ')

/-- A line at a given depth. -/
def line (depth : Nat) (text : String) : String :=
  indent depth ++ text ++ "\n"

/-- A block from its head and the texts of its children, which are indented already. With `force`
a single child is enclosed as well. -/
def block (depth : Nat) (force : Bool) (header : String) : (children : List String) → String
  | [] => line depth (header ++ ";")
  | [child] =>
    if force then line depth (header ++ " begin") ++ child ++ line depth "end"
    else line depth header ++ child
  | children => line depth (header ++ " begin") ++ String.join children ++ line depth "end"

end Layout

/-- The text of a head. -/
def Head.text : Head → String
  | .raw text => text
  | .onEvent event => "@( " ++ event.text ++ " )"
  | .repeatLoop count => "repeat( " ++ count.text ++ " )"
  | .whileLoop condition => "while( " ++ condition.text ++ " )"
  | .forLoop start condition next =>
    "for( " ++ start.text ++ "; " ++ condition.text ++ "; " ++ next.text ++ " )"

/-- The text of a script step at a given depth. Waits leave only a comment. -/
def ScriptStep.render (depth : Nat) : ScriptStep → String
  | .delay microseconds => Layout.line depth ("// wait " ++ microseconds.text ++ " us")
  | .signal event => Layout.line depth ("// wait for " ++ event.text)
  | .mark state _ => Layout.line depth (state.toggle.text ++ ";")

/-- Whether a statement is written on a line that ends it: a command or a mark. -/
def Statement.isSingleLine : Statement → Bool
  | .command _ => true
  | .step (.mark ..) => true
  | _ => false

/-- Whether the first branch of a conditional with an alternative has to be enclosed even though
it has a single child. -/
def needsEnclosing : List Statement → Bool
  | [only] => !only.isSingleLine
  | _ => false

/-- The text in front of the statements of an arm. -/
def armHeader (label : Option Value) : String :=
  match label with
  | some v => v.text ++ ":"
  | none => "default:"

mutual

/-- The text of a statement at a given depth. -/
def Statement.render (depth : Nat) : Statement → String
  | .command c => Layout.line depth (c.text ++ ";")
  | .list items => String.join (renderEach depth items)
  | .block head body => Layout.block depth false head.text (renderEach (depth + 1) body)
  | .branch condition yes no =>
    let alternative := renderEach (depth + 1) no
    let force := !alternative.isEmpty && needsEnclosing yes
    Layout.block depth force ("if( " ++ condition.text ++ " )") (renderEach (depth + 1) yes)
      ++ (if alternative.isEmpty then "" else Layout.block depth false "else" alternative)
  | .select scrutinee arms =>
    Layout.line depth ("case( " ++ scrutinee.text ++ " )") ++ renderArms (depth + 1) arms
      ++ Layout.line depth "endcase"
  | .step s => s.render depth

/-- The texts of those statements of a list that are not empty. -/
def renderEach (depth : Nat) : List Statement → List String
  | [] => []
  | s :: rest =>
    if s.isEmpty then renderEach depth rest else s.render depth :: renderEach depth rest

/-- The text of the arms of a case. -/
def renderArms (depth : Nat) : List Arm → String
  | [] => ""
  | .mk label body :: rest =>
    Layout.block depth false (armHeader label) (renderEach (depth + 1) body)
      ++ renderArms depth rest

end

end Stimulus
