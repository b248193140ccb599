import Stimulus.Analysis
import Stimulus.Net
import Stimulus.Operator

/-!
# Expressions

An expression of the modelling language is a tree that is indexed by its kind: the only way from
one kind to another is a comparison, a choice or one of the explicit conversions. Arithmetic and
comparisons carry the fact that the operator is defined on the kind of its operands, so a tree
that exists is well kinded.

## Main definitions

* `Expr`, the trees
* `Expr.isConstant`, `Expr.truth?`, `Expr.number?`: trees that are literals
* `Expr.needsRounding`: trees that call the rounding function a module has to define itself
-/

namespace Stimulus

/-- Functions of one real argument. -/
inductive UnaryFunction where
  | ddt
  | idt
  | exp
  | ln
  | log
  | sqrt
  | sin
  | cos
  | tan
  | tanh
  | floor
  | ceil
  | limexp
  deriving DecidableEq, Repr

/-- The spelling of a function of one argument. -/
def UnaryFunction.name : UnaryFunction → String
  | .ddt => "ddt"
  | .idt => "idt"
  | .exp => "exp"
  | .ln => "ln"
  | .log => "log"
  | .sqrt => "sqrt"
  | .sin => "sin"
  | .cos => "cos"
  | .tan => "tan"
  | .tanh => "tanh"
  | .floor => "floor"
  | .ceil => "ceil"
  | .limexp => "limexp"

/-- Functions of two real arguments. The second argument of `idt` is its initial condition. -/
inductive BinaryFunction where
  | idt
  | pow
  | min
  | max
  deriving DecidableEq, Repr

/-- The spelling of a function of two arguments. -/
def BinaryFunction.name : BinaryFunction → String
  | .idt => "idt"
  | .pow => "pow"
  | .min => "min"
  | .max => "max"

/-- The quantities that the simulator itself provides. -/
inductive Environment where
  | time
  | temperature
  | thermalVoltage
  deriving DecidableEq, Repr

/-- The spelling of a quantity of the simulator. -/
def Environment.name : Environment → String
  | .time => "$abstime"
  | .temperature => "$temperature"
  | .thermalVoltage => "$vt"

/-- Expressions, indexed by their kind. -/
inductive Expr : Kind → Type where
  /-- Text that is trusted to be an expression of the kind. -/
  | raw {k : Kind} (text : String) : Expr k
  /-- A declared variable or parameter. -/
  | ident {k : Kind} (name : String) : Expr k
  | real (x : Float) : Expr .real
  | integer (n : Int) : Expr .integer
  | bool (b : Bool) : Expr .bool
  | arith {k : Kind} (op : Arithmetic) (defined : op.definedOn k = true) (lhs rhs : Expr k) :
      Expr k
  | compare {k : Kind} (op : Comparison) (defined : op.definedOn k = true) (lhs rhs : Expr k) :
      Expr .bool
  | connect (op : Connective) (lhs rhs : Expr .bool) : Expr .bool
  /-- The opposite number. -/
  | neg {k : Kind} (numeric : k ≠ .bool) (operand : Expr k) : Expr k
  /-- The bitwise complement. -/
  | complement (operand : Expr .integer) : Expr .integer
  /-- The opposite truth value. -/
  | not (operand : Expr .bool) : Expr .bool
  | abs {k : Kind} (numeric : k ≠ .bool) (operand : Expr k) : Expr k
  | call (f : UnaryFunction) (x : Expr .real) : Expr .real
  | call₂ (f : BinaryFunction) (x y : Expr .real) : Expr .real
  /-- A value whose slope is limited in both directions. -/
  | slew (x maxRise maxFall : Expr .real) : Expr .real
  /-- A value whose steps are smoothed into ramps. -/
  | transition (x delay rise fall : Expr .real) : Expr .real
  /-- An integer power, rounded back to an integer. -/
  | power (base exponent : Expr .integer) : Expr .integer
  /-- The nearest integer. -/
  | round (x : Expr .real) : Expr .integer
  /-- An integer used as a real. -/
  | ofInteger (n : Expr .integer) : Expr .real
  /-- One where a condition holds and zero elsewhere. -/
  | indicator (condition : Expr .bool) : Expr .real
  | select {k : Kind} (condition : Expr .bool) (yes no : Expr k) : Expr k
  /-- The potential or flow of a branch. -/
  | access (branch : Branch) : Expr .real
  | environment (quantity : Environment) : Expr .real
  /-- Whether one of the listed analyses runs. -/
  | analysis (types : List Analysis) : Expr .bool
  /-- A file opened for writing, as its descriptor. -/
  | openFile (path : String) (mode : Option String) : Expr .integer

namespace Expr

/-- Literals are the constants and the integer constants used as reals. -/
def isConstant : {k : Kind} → Expr k → Bool
  | _, .real _ => true
  | _, .integer _ => true
  | _, .bool _ => true
  | _, .ofInteger n => n.isConstant
  | _, _ => false

/-- The truth value of a bool literal. -/
def truth? : Expr .bool → Option Bool
  | .bool b => some b
  | _ => none

/-- The number that a real literal stands for. -/
def number? : Expr .real → Option Float
  | .real x => some x
  | .ofInteger (.integer n) => some (Float.ofInt n)
  | _ => none

/-- Whether the rounding function is called anywhere in the tree. -/
def needsRounding : {k : Kind} → Expr k → Bool
  | _, .raw _ => false
  | _, .ident _ => false
  | _, .real _ => false
  | _, .integer _ => false
  | _, .bool _ => false
  | _, .arith _ _ a b => a.needsRounding || b.needsRounding
  | _, .compare _ _ a b => a.needsRounding || b.needsRounding
  | _, .connect _ a b => a.needsRounding || b.needsRounding
  | _, .neg _ a => a.needsRounding
  | _, .complement a => a.needsRounding
  | _, .not a => a.needsRounding
  | _, .abs _ a => a.needsRounding
  | _, .call _ x => x.needsRounding
  | _, .call₂ _ x y => x.needsRounding || y.needsRounding
  | _, .slew x r f => x.needsRounding || r.needsRounding || f.needsRounding
  | _, .transition x d r f =>
    x.needsRounding || d.needsRounding || r.needsRounding || f.needsRounding
  | _, .power _ _ => true
  | _, .round _ => true
  | _, .ofInteger n => n.needsRounding
  | _, .indicator c => c.needsRounding
  | _, .select c a b => c.needsRounding || a.needsRounding || b.needsRounding
  | _, .access _ => false
  | _, .environment _ => false
  | _, .analysis _ => false
  | _, .openFile _ _ => false

end Expr

end Stimulus
