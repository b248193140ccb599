import Stimulus.Proofs.Grammar.Numeral
import Stimulus.Proofs.Grammar.Reading

/-!
# Evaluating expressions

The simulator knows two types of numbers, and it finds the type of an expression from its text
alone. An operator between two integers is integer arithmetic. As soon as one operand is a real, the
other one is **promoted**, and the operator is real arithmetic. A number that is written without
a point and without an exponent is an integer, a name has the type that it was declared with, and
a truth value is the integer 0 or 1.

The numbers themselves, the operations on them and the values of the names make
an **interpretation**. It is arbitrary but for a few laws, so what holds for all interpretations
holds for exact arithmetic as well as for machine words that overflow, and for all values of the
variables.

## Main definitions

* `Interpretation`, `Number`: a number of either type
* `Number.arith`, `Number.compare`, `Number.apply`: operations that follow the types of the operands
* `Grammar.Tree.value`: the value of what is read
-/

namespace Stimulus

open Grammar

/-- A number of either type. -/
inductive Number (Z R : Type) where
  | integer (n : Z)
  | real (x : R)
  deriving DecidableEq, Repr

/-- What numbers, operators, functions and names stand for. -/
structure Interpretation where
  Integer : Type
  Real : Type
  natural : Nat → Integer
  /-- The real nearest to `digits · 10 ^ power`. -/
  decimal : Nat → Int → Real
  promote : Integer → Real
  /-- The rounding function of the module. -/
  round : Real → Integer
  integerArith : Arithmetic → Integer → Integer → Integer
  realArith : Arithmetic → Real → Real → Real
  negInteger : Integer → Integer
  negReal : Real → Real
  complement : Integer → Integer
  integerCompare : Comparison → Integer → Integer → Bool
  realCompare : Comparison → Real → Real → Bool
  /-- The choice between two reals, of which the first one is taken if the condition holds. -/
  realChoice : Bool → Real → Real → Real
  /-- The functions that give an integer for integers. -/
  integerFunction : String → List Integer → Integer
  realFunction : String → List Real → Real
  infinity : Real
  /-- The values of variables, parameters and quantities of the simulator. -/
  named : String → Number Integer Real
  /-- The potentials and flows, by access function and nets. -/
  probe : String → List Tree → Real
  /-- Whether one of some analyses runs. -/
  query : List Tree → Bool
  integerCompare_mirrored (op : Comparison) (m n : Integer) :
    integerCompare op.mirrored n m = integerCompare op m n
  realCompare_mirrored (op : Comparison) (x y : Real) :
    realCompare op.mirrored y x = realCompare op x y
  integerCompare_eq_toNat (a b : Bool) :
    integerCompare .eq (natural a.toNat) (natural b.toNat) = (a == b)
  integerCompare_ne_toNat (a b : Bool) :
    integerCompare .ne (natural a.toNat) (natural b.toNat) = (a != b)
  bitXor_toNat (a b : Bool) :
    integerArith .bitXor (natural a.toNat) (natural b.toNat) = natural (a ^^ b).toNat

namespace Interpretation

/-- A truth value. -/
def bit (I : Interpretation) (b : Bool) : I.Integer :=
  I.natural b.toNat

/-- An integer constant. -/
def integer (I : Interpretation) : Int → I.Integer
  | .ofNat n => I.natural n
  | .negSucc n => I.negInteger (I.natural (n + 1))

/-- A number of either type. -/
abbrev Num (I : Interpretation) : Type :=
  Number I.Integer I.Real

end Interpretation

/-! ### Numbers -/

/-- The operators on the bits of integers. -/
def Arithmetic.onBits : Arithmetic → Bool
  | .shl | .shr | .bitAnd | .bitOr | .bitXor => true
  | .add | .sub | .mul | .div | .rem => false

namespace Number

variable {I : Interpretation}

/-- A number as a real. -/
def toReal : I.Num → I.Real
  | .integer n => I.promote n
  | .real x => x

/-- A number is true if it is not zero. -/
def isTrue : I.Num → Bool
  | .integer n => I.integerCompare .ne n (I.bit false)
  | .real x => I.realCompare .ne x (I.decimal 0 0)

/-- An operator between two numbers, by their types. -/
def arith (op : Arithmetic) : I.Num → I.Num → I.Num
  | .integer m, .integer n => .integer (I.integerArith op m n)
  | x, y => .real (I.realArith op x.toReal y.toReal)

/-- A comparison of two numbers, by their types. -/
def compare (op : Comparison) : I.Num → I.Num → Bool
  | .integer m, .integer n => I.integerCompare op m n
  | x, y => I.realCompare op x.toReal y.toReal

/-- The opposite number, of the same type. -/
def neg : I.Num → I.Num
  | .integer n => .integer (I.negInteger n)
  | .real x => .real (I.negReal x)

/-- One of two numbers. It is a real if the other one is a real. -/
def choose (c : Bool) : I.Num → I.Num → I.Num
  | .integer m, .integer n => .integer (if c then m else n)
  | x, y => .real (I.realChoice c x.toReal y.toReal)

/-- The functions that give an integer if all their arguments are integers. -/
def following : List String :=
  ["abs", "min", "max"]

/-- The integers among which there is no real. -/
def integers? : List I.Num → Option (List I.Integer)
  | [] => some []
  | .integer n :: xs => (integers? xs).map (n :: ·)
  | .real _ :: _ => none

/-- A function of numbers. All but a few functions turn their arguments into reals. -/
def apply (f : String) (xs : List I.Num) : I.Num :=
  match following.contains f, integers? xs with
  | true, some ns => .integer (I.integerFunction f ns)
  | _, _ => .real (I.realFunction f (xs.map toReal))

/-- A call with numbers as arguments. The rounding function takes one real. -/
def call (f : String) (xs : List I.Num) : Option I.Num :=
  if f = Expr.roundName then
    match xs with
    | [x] => some (.integer (I.round x.toReal))
    | _ => none
  else some (apply f xs)

/-- An operator between two numbers, if it is defined on them: reals have no bits. -/
def arith? (op : Arithmetic) : I.Num → I.Num → Option I.Num
  | .integer m, .integer n => some (.integer (I.integerArith op m n))
  | x, y => if op.onBits then none else some (arith op x y)

/-- An operator other than those on bits is defined on all numbers. -/
theorem arith?_eq {op : Arithmetic} (h : op.onBits = false) (x y : I.Num) :
    arith? op x y = some (arith op x y) := by
  cases x <;> cases y <;> simp [arith?, arith, h]

/-- An operator in front of a number. -/
def prefixed : Prefix → I.Num → Option I.Num
  | .plus, x => some x
  | .minus, x => some x.neg
  | .not, x => some (.integer (I.bit !x.isTrue))
  | .complement, .integer n => some (.integer (I.complement n))
  | .complement, .real _ => none

/-- An operator between two numbers. Expressions are never written with the power operator, which
has no value here. -/
def infixed (x y : I.Num) : Infix → Option I.Num
  | .add => arith? .add x y
  | .sub => arith? .sub x y
  | .mul => arith? .mul x y
  | .div => arith? .div x y
  | .rem => arith? .rem x y
  | .power => none
  | .shl => arith? .shl x y
  | .shr => arith? .shr x y
  | .bitAnd => arith? .bitAnd x y
  | .bitOr => arith? .bitOr x y
  | .bitXor => arith? .bitXor x y
  | .and => some (.integer (I.bit (x.isTrue && y.isTrue)))
  | .or => some (.integer (I.bit (x.isTrue || y.isTrue)))
  | .lt => some (.integer (I.bit (compare .lt x y)))
  | .le => some (.integer (I.bit (compare .le x y)))
  | .gt => some (.integer (I.bit (compare .gt x y)))
  | .ge => some (.integer (I.bit (compare .ge x y)))
  | .eq => some (.integer (I.bit (compare .eq x y)))
  | .ne => some (.integer (I.bit (compare .ne x y)))

/-- An arithmetic operator as an infix. -/
@[simp] theorem infixed_ofArithmetic (x y : I.Num) (op : Arithmetic) :
    infixed x y (.ofArithmetic op) = arith? op x y := by
  cases op <;> rfl

/-- A comparison as an infix. -/
@[simp] theorem infixed_ofComparison (x y : I.Num) (op : Comparison) :
    infixed x y (.ofComparison op) = some (.integer (I.bit (compare op x y))) := by
  cases op <;> rfl

/-- A truth value is true or false. -/
@[simp] theorem isTrue_bit (b : Bool) : isTrue (.integer (I.bit b) : I.Num) = b := by
  rw [isTrue, Interpretation.bit, Interpretation.bit, I.integerCompare_ne_toNat]
  cases b <;> rfl

end Number

/-! ### Trees -/

namespace Interpretation

variable (I : Interpretation)

/-- The value of an unsigned number. -/
def numeral : Numeral → I.Num
  | .integer n => .integer (I.natural n)
  | .decimal digits power => .real (I.decimal digits power)

/-- The value of a name. The language has a word for infinity. -/
def name (x : String) : I.Num :=
  if x = "inf" then .real I.infinity else I.named x

/-- The number that is written for a value other than an infinity or no number, without its
sign. -/
def magnitude (significand : Nat) (power : Int) : I.Real :=
  let x := Literal.rounded significand power
  I.decimal x.digits (x.exponent - Literal.layout.places)

end Interpretation

namespace Grammar

variable (I : Interpretation)

/-- The functions that give access to branches. -/
def accessFunctions : List String :=
  [Tree.accessName .potential, Tree.accessName .flow]

mutual

/-- The value of a tree, if it is a number. -/
def Tree.value : Tree → Option I.Num
  | .number spelling => some (I.numeral (.read spelling))
  | .name x => some (I.name x)
  | .literal _ => none
  | .element _ _ => none
  | .call f xs =>
    if accessFunctions.contains f then some (.real (I.probe f xs))
    else if f = "analysis" then some (.integer (I.bit (I.query xs)))
    else do Number.call f (← Tree.values xs)
  | .prefixed op x => do Number.prefixed op (← x.value)
  | .infixed op x y => do Number.infixed (← x.value) (← y.value) op
  | .choice c x y => do return .choose (← c.value).isTrue (← x.value) (← y.value)

/-- The values of trees, if all of them are numbers. -/
def Tree.values : List Tree → Option (List I.Num)
  | [] => some []
  | x :: xs => do return (← x.value) :: (← Tree.values xs)

end

end Grammar

end Stimulus
