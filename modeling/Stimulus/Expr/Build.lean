import Stimulus.Expr.Basic

/-!
# Building expressions

The ways to put expressions together that do more than add a node. A comparison with a literal on
its left alone is **mirrored**, so that the varying operand is written first; connectives with a
literal operand are **folded**.

## Main definitions

* `Expr.comparison`, with mirroring
* `Expr.and`, `Expr.or`, `Expr.xor`, `Expr.negated`, with folding
* `Expr.ofBool`, `Expr.toBool`: the conversions from and to bools
-/

namespace Stimulus

/-- A comparison and its mirror image are defined on the same kinds. -/
theorem Comparison.definedOn_mirrored (op : Comparison) (k : Kind) :
    op.mirrored.definedOn k = op.definedOn k := by
  cases op <;> rfl

/-- Every comparison is defined on numbers. -/
theorem Comparison.definedOn_of_ne_bool (op : Comparison) {k : Kind} (h : k ≠ .bool) :
    op.definedOn k = true := by
  cases op <;> cases k <;> first | rfl | exact absurd rfl h

/-- Every comparison is defined on integers. -/
theorem Comparison.definedOn_integer (op : Comparison) : op.definedOn .integer = true :=
  op.definedOn_of_ne_bool (by decide)

/-- Every arithmetic operator is defined on integers. -/
theorem Arithmetic.definedOn_integer (op : Arithmetic) : op.definedOn .integer = true := by
  cases op <;> rfl

namespace Expr

/-! ### Numbers -/

section Real

variable (a b : Expr .real)

/-- The sum of two reals. -/
def add : Expr .real := .arith .add rfl a b

/-- The difference of two reals. -/
def sub : Expr .real := .arith .sub rfl a b

/-- The product of two reals. -/
def mul : Expr .real := .arith .mul rfl a b

/-- The quotient of two reals. -/
def div : Expr .real := .arith .div rfl a b

end Real

/-- The absolute value of a real. -/
def absReal (x : Expr .real) : Expr .real :=
  .abs (by decide) x

/-- The opposite of a real. -/
def negReal (x : Expr .real) : Expr .real :=
  .neg (by decide) x

/-- The simulation time. -/
def now : Expr .real :=
  .environment .time

/-! ### Bools -/

/-- A comparison. If its left operand alone is a literal, the operands trade places. -/
def comparison {k : Kind} (op : Comparison) (defined : op.definedOn k = true) (lhs rhs : Expr k) :
    Expr .bool :=
  if lhs.isConstant && !rhs.isConstant then
    .compare op.mirrored ((op.definedOn_mirrored k).trans defined) rhs lhs
  else .compare op defined lhs rhs

/-- The opposite truth value; a literal is replaced by the other one. -/
def negated (e : Expr .bool) : Expr .bool :=
  match e.truth? with
  | some b => .bool (!b)
  | none => .not e

/-- Conjunction. A false operand decides it, a true one leaves the other operand. -/
def and (a b : Expr .bool) : Expr .bool :=
  match a.truth?, b.truth? with
  | some false, _ => .bool false
  | _, some false => .bool false
  | some true, _ => b
  | _, some true => a
  | none, none => .connect .and a b

/-- Disjunction. A true operand decides it, a false one leaves the other operand. -/
def or (a b : Expr .bool) : Expr .bool :=
  match a.truth?, b.truth? with
  | some true, _ => .bool true
  | _, some true => .bool true
  | some false, _ => b
  | _, some false => a
  | none, none => .connect .or a b

/-- Exclusive disjunction. A false operand leaves the other operand, a true one its opposite. -/
def xor (a b : Expr .bool) : Expr .bool :=
  match a.truth?, b.truth? with
  | some x, some y => .bool (x ^^ y)
  | some x, none => if x then b.negated else b
  | none, some y => if y then a.negated else a
  | none, none => .connect .xor a b

/-- A bool as 0 or 1. -/
def ofBool (c : Expr .bool) : Expr .integer :=
  .select c (.integer 1) (.integer 0)

/-- A number is true if it is not zero. -/
def toBool : {k : Kind} → Expr k → Expr .bool
  | .real, x => comparison .ne rfl x (.real 0.0)
  | .integer, n => comparison .ne rfl n (.integer 0)
  | .bool, b => b

/-- Whether the bit of an integer with a given index is set. -/
def bit (n index : Expr .integer) : Expr .bool :=
  (Expr.arith .bitAnd rfl (.arith .shr rfl n index) (.integer 1)).toBool

/-- Conversion to a real. -/
def toReal : {k : Kind} → Expr k → Expr .real
  | .real, x => x
  | .integer, n => .ofInteger n
  | .bool, b => .indicator b

/-- Conversion to an integer: reals are rounded. -/
def toInteger : {k : Kind} → Expr k → Expr .integer
  | .real, x => .round x
  | .integer, n => n
  | .bool, b => b.ofBool

/-- Conversion to a given kind. -/
def castTo {k : Kind} (e : Expr k) : (target : Kind) → Expr target
  | .real => e.toReal
  | .integer => e.toInteger
  | .bool => e.toBool

end Expr

end Stimulus
