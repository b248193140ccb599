import Stimulus.Kind

/-!
# Binary operators

The binary operators of the modelling language, the kinds each of them is defined on and the
spelling of each. Comparisons have a **mirror image**, the operator that gives the same answer
once the operands are exchanged.

## Main definitions

* `BinaryOp` and `BinaryOp.symbol`
* `Comparison`, `Comparison.mirrored`
* `Comparison.definedOn`, `Arithmetic.definedOn`, `BinaryOp.wantedKind`
-/

namespace Stimulus

/-- The comparisons, which turn two operands of one kind into a bool. -/
inductive Comparison where
  | lt
  | le
  | gt
  | ge
  | eq
  | ne
  deriving DecidableEq, Repr

namespace Comparison

/-- The spelling of a comparison. -/
def symbol : Comparison → String
  | .lt => "<"
  | .le => "<="
  | .gt => ">"
  | .ge => ">="
  | .eq => "=="
  | .ne => "!="

/-- The comparison that holds of `b` and `a` exactly when this one holds of `a` and `b`. -/
def mirrored : Comparison → Comparison
  | .lt => .gt
  | .le => .ge
  | .gt => .lt
  | .ge => .le
  | .eq => .eq
  | .ne => .ne

/-- Bools can be told apart but have no order. -/
def definedOn : Comparison → Kind → Bool
  | .eq, _ => true
  | .ne, _ => true
  | _, k => k != .bool

/-- Looking into the mirror twice changes nothing. -/
@[simp] theorem mirrored_mirrored (c : Comparison) : c.mirrored.mirrored = c := by
  cases c <;> rfl

end Comparison

/-- The operators that combine two operands of one kind into a third value of that kind and are
written between them. -/
inductive Arithmetic where
  | add
  | sub
  | mul
  | div
  | rem
  | shl
  | shr
  | bitAnd
  | bitOr
  | bitXor
  deriving DecidableEq, Repr

namespace Arithmetic

/-- The spelling of an arithmetic operator. -/
def symbol : Arithmetic → String
  | .add => "+"
  | .sub => "-"
  | .mul => "*"
  | .div => "/"
  | .rem => "%"
  | .shl => "<<"
  | .shr => ">>"
  | .bitAnd => "&"
  | .bitOr => "|"
  | .bitXor => "^"

/-- Reals have the four basic operations only, integers have them all, and bools have none. -/
def definedOn : Arithmetic → Kind → Bool
  | .add, k => k != .bool
  | .sub, k => k != .bool
  | .mul, k => k != .bool
  | .div, k => k != .bool
  | _, k => k == .integer

end Arithmetic

/-- The connectives of bools. -/
inductive Connective where
  | and
  | or
  | xor
  deriving DecidableEq, Repr

namespace Connective

/-- The spelling of a connective. -/
def symbol : Connective → String
  | .and => "&&"
  | .or => "||"
  | .xor => "^"

end Connective

/-- Every operator that may be written between two values whose kinds are known only when the
expression is built. -/
inductive BinaryOp where
  | arith (op : Arithmetic)
  | pow
  | and
  | or
  | compare (op : Comparison)
  deriving DecidableEq, Repr

namespace BinaryOp

/-- The spelling of an operator. -/
def symbol : BinaryOp → String
  | .arith op => op.symbol
  | .pow => "**"
  | .and => "&&"
  | .or => "||"
  | .compare op => op.symbol

/-- All operators, in the order of their table. -/
def all : List BinaryOp :=
  [.arith .add, .arith .sub, .arith .mul, .arith .div, .arith .rem, .pow, .arith .shl,
    .arith .shr, .arith .bitAnd, .arith .bitOr, .arith .bitXor, .and, .or, .compare .lt,
    .compare .le, .compare .gt, .compare .ge, .compare .eq, .compare .ne]

/-- The operator with a given spelling. -/
def ofSymbol? (symbol : String) : Option BinaryOp :=
  all.find? (·.symbol == symbol)

/-- The kind that an operator asks for when it meets a pair of operands of kind `k` on which it
is undefined: the logical connectives want bools and everything else wants integers. -/
def wantedKind (op : BinaryOp) (k : Kind) : Kind :=
  match k, op with
  | .bool, _ => .integer
  | _, .and => .bool
  | _, .or => .bool
  | _, _ => .integer

end BinaryOp

end Stimulus
