import Stimulus.Expr.Basic
import Stimulus.Literal

/-!
# The text of expressions

Every operand of an operator is put in parentheses, so the meaning of a text never depends on the
precedence of operators. Three places leave the parentheses out when they are not needed: the
condition of a choice and the two sides of the difference in a crossing event. They look at the
operators of the text that stand outside all parentheses, brackets and string literals.

## Main definitions

* `Expr.text`
* `Grouping.operators`, the operators at the top level of a text
* `Grouping.wrap`, parentheses where one of them is not allowed
-/

namespace Stimulus

namespace Grouping

/-- The characters that operators are made of. -/
def operatorChars : List Char :=
  "?:<>=!&|^~+-*/%".toList

/-- The operator characters that bind tighter than a choice. They may stand in its condition. -/
def tighterThanChoice : List Char :=
  "<>=!&|^~+-*/%".toList

/-- The operator characters that may stand on the left of a difference. -/
def minuend : List Char :=
  "+-*/%".toList

/-- The operator characters that may stand on the right of a difference. -/
def subtrahend : List Char :=
  "*/%".toList

/-- Scans a text from a point at bracket depth `depth`, inside a string literal if `quoted`, right
after a backslash if `escaped`, and lists the operator characters outside all brackets and string
literals. A quote after a backslash does not delimit a literal. -/
def scan (depth : Nat) (quoted escaped : Bool) : List Char → List Char
  | [] => []
  | c :: rest =>
    if c == '"' && !escaped then scan depth (!quoted) false rest
    else if quoted then scan depth quoted (c == '\\') rest
    else if c == '(' || c == '[' then scan (depth + 1) quoted false rest
    else if c == ')' || c == ']' then scan (depth - 1) quoted false rest
    else if depth == 0 && operatorChars.contains c then c :: scan depth quoted false rest
    else scan depth quoted (c == '\\') rest

/-- The operator characters at the top level of a text. -/
def operators (text : String) : List Char :=
  scan 0 false false text.toList

/-- Puts a text in parentheses if it has an operator at its top level that is not allowed there. -/
def wrap (allowed : List Char) (text : String) : String :=
  if (operators text).all allowed.contains then text else "( " ++ text ++ " )"

end Grouping

namespace Expr

/-- The form of a binary operation. -/
def binaryText (symbol lhs rhs : String) : String :=
  "( " ++ lhs ++ " )" ++ symbol ++ "( " ++ rhs ++ " )"

/-- The form of a unary operation. -/
def unaryText (symbol operand : String) : String :=
  symbol ++ "( " ++ operand ++ " )"

/-- The form of a call. -/
def callText (function : String) (arguments : List String) : String :=
  function ++ "(" ++ String.intercalate ", " arguments ++ ")"

/-- The form of a choice whose condition has been put in parentheses where needed. -/
def choiceText (condition yes no : String) : String :=
  condition ++ " ? ( " ++ yes ++ " ) : ( " ++ no ++ " )"

/-- The name of the rounding function. -/
def roundName : String :=
  "_rtoi"

/-- The text of an expression. -/
def text : {k : Kind} → Expr k → String
  | _, .raw text => text
  | _, .ident name => name
  | _, .real x => Literal.real x
  | _, .integer n => Literal.integer n
  | _, .bool b => Literal.bool b
  | _, .arith op _ a b => binaryText op.symbol a.text b.text
  | _, .compare op _ a b => binaryText op.symbol a.text b.text
  | _, .connect op a b => binaryText op.symbol a.text b.text
  | _, .neg _ a => unaryText "-" a.text
  | _, .complement a => unaryText "~" a.text
  | _, .not a => unaryText "!" a.text
  | _, .abs _ a => callText "abs" [a.text]
  | _, .call f x => callText f.name [x.text]
  | _, .call₂ f x y => callText f.name [x.text, y.text]
  | _, .slew x r f => callText "slew" [x.text, r.text, f.text]
  | _, .transition x d r f => callText "transition" [x.text, d.text, r.text, f.text]
  | _, .power a b => callText roundName [callText "pow" [a.text, b.text]]
  | _, .round x => callText roundName [x.text]
  | _, .ofInteger n => n.text
  | _, .indicator c =>
    choiceText (if c.isConstant then c.text else Grouping.wrap Grouping.tighterThanChoice c.text)
      "1.0" "0.0"
  | _, .select c a b =>
    choiceText (if c.isConstant then c.text else Grouping.wrap Grouping.tighterThanChoice c.text)
      a.text b.text
  | _, .access b => b.text
  | _, .environment q => q.name
  | _, .analysis types => "analysis(" ++ Analysis.arguments types ++ ")"
  | _, .openFile path none => callText "$fopen" [Text.quote path]
  | _, .openFile path (some mode) => callText "$fopen" [Text.quote path, Text.quote mode]

/-- The text of an expression in a place that allows only some operators at the top level. A
literal never needs parentheses. -/
def textIn (allowed : List Char) {k : Kind} (e : Expr k) : String :=
  if e.isConstant then e.text else Grouping.wrap allowed e.text

end Expr

end Stimulus
