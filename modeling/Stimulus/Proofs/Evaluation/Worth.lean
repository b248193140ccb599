import Stimulus.Proofs.Evaluation.Interpretation
import Stimulus.Proofs.Grammar.Construction

/-!
# What constructions are worth

A construction is worth a number of its kind or a truth value, by the operations it is made of and
without a look at any text. An operator between two reals is real arithmetic, an operator between
two integers is integer arithmetic, and a conversion converts.

A text does not tell the kinds. An integer that is used as a real is written like any other integer,
so to the simulator it still is one. The **written** reading of an interpretation has this for its
reals: a real is a number of either type, and what is done to reals follows the types.

## Main definitions

* `Worth`, `Construction.worth`
* `Interpretation.Types`: the values of names have the types of their kinds.
* `Interpretation.written`: reals as they are written
-/

namespace Stimulus

open Grammar

/-- A number of one of the kinds of numbers, or a truth value. -/
inductive Worth (I : Interpretation) where
  | real (x : I.Real)
  | integer (n : I.Integer)
  | bool (b : Bool)

namespace Interpretation

variable (I : Interpretation)

/-- The value that a real constant has as it is written: to seven digits, and with a quotient for
what is not a number. -/
def constant : Binary64 → I.Real
  | .nan => I.realArith .div (I.decimal 0 (-1)) (I.decimal 0 (-1))
  | .infinite false => I.infinity
  | .infinite true => I.negReal I.infinity
  | .finite false significand power => I.magnitude significand power
  | .finite true significand power => I.negReal (I.magnitude significand power)

/-- What a name of a given kind is worth, if its value has the type of the kind. A bool is true
unless it is zero. -/
def ofName (k : Kind) (x : String) : Option (Worth I) :=
  match k, I.name x with
  | .real, .real x => some (.real x)
  | .integer, .integer n => some (.integer n)
  | .bool, .integer n => some (.bool (Number.isTrue (.integer n : I.Num)))
  | _, _ => none

end Interpretation

namespace Worth

variable {I : Interpretation}

/-- The kind of a worth. -/
def kind : Worth I → Kind
  | .real _ => .real
  | .integer _ => .integer
  | .bool _ => .bool

/-- The number, if it is a real. -/
def real? : Worth I → Option I.Real
  | .real x => some x
  | _ => none

/-- The truth value, if it is one. -/
def bool? : Worth I → Option Bool
  | .bool b => some b
  | _ => none

/-- What has a real. -/
theorem real?_eq_some {d : Worth I} {x : I.Real} : d.real? = some x ↔ d = .real x := by
  cases d <;> simp [real?]

/-- What has a truth value. -/
theorem bool?_eq_some {d : Worth I} {b : Bool} : d.bool? = some b ↔ d = .bool b := by
  cases d <;> simp [bool?]

/-- A worth that has to be of a kind. -/
def as (k : Kind) (d : Worth I) : Option (Worth I) :=
  if d.kind = k then some d else none

/-- One of two worths of one kind. -/
def choose (c : Bool) : Worth I → Worth I → Option (Worth I)
  | .real x, .real y => some (.real (I.realChoice c x y))
  | .integer m, .integer n => some (.integer (if c then m else n))
  | .bool a, .bool b => some (.bool (if c then a else b))
  | _, _ => none

/-- An operator between two worths of one kind, if it is defined on that kind. -/
def apply (op : BinaryOp) : Worth I → Worth I → Option (Worth I)
  | .real x, .real y =>
    match op with
    | .arith op => if op.definedOn .real then some (.real (I.realArith op x y)) else none
    | .pow => some (.real (I.realFunction "pow" [x, y]))
    | .compare op => some (.bool (I.realCompare op x y))
    | _ => none
  | .integer m, .integer n =>
    match op with
    | .arith op => some (.integer (I.integerArith op m n))
    | .pow => some (.integer (I.round (I.realFunction "pow" [I.promote m, I.promote n])))
    | .compare op => some (.bool (I.integerCompare op m n))
    | _ => none
  | .bool a, .bool b =>
    match op with
    | .and | .arith .bitAnd => some (.bool (a && b))
    | .or | .arith .bitOr => some (.bool (a || b))
    | .arith .bitXor => some (.bool (a ^^ b))
    | .compare .eq => some (.bool (a == b))
    | .compare .ne => some (.bool (a != b))
    | _ => none
  | _, _ => none

/-- The opposite number. -/
def negate : Worth I → Option (Worth I)
  | .real x => some (.real (I.negReal x))
  | .integer n => some (.integer (I.negInteger n))
  | .bool _ => none

/-- The opposite truth value, the complement of an integer. -/
def invert : Worth I → Option (Worth I)
  | .real _ => none
  | .integer n => some (.integer (I.complement n))
  | .bool b => some (.bool !b)

/-- The absolute value of a number. -/
def abs : Worth I → Option (Worth I)
  | .real x => some (.real (I.realFunction "abs" [x]))
  | .integer n => some (.integer (I.integerFunction "abs" [n]))
  | .bool _ => none

/-- The conversion to a kind. -/
def castTo : Kind → Worth I → Option (Worth I)
  | .real, .real x => some (.real x)
  | .real, .integer n => some (.real (I.promote n))
  | .real, .bool b => some (.real (I.realChoice b (I.decimal 10 (-1)) (I.decimal 0 (-1))))
  | .integer, .real x => some (.integer (I.round x))
  | .integer, .integer n => some (.integer n)
  | .integer, .bool b => some (.integer (I.bit b))
  | .bool, .real x => some (.bool (I.realCompare .ne x (I.constant (.ofFloat 0.0))))
  | .bool, .integer n => some (.bool (I.integerCompare .ne n (I.natural 0)))
  | .bool, .bool b => some (.bool b)

end Worth

/-! ### Constructions -/

namespace Construction

variable (I : Interpretation)

/-- What a construction is worth, if all operations are defined on the kinds of their operands. -/
def worth : Construction → Option (Worth I)
  | .real x => some (.real (I.constant (.ofFloat x)))
  | .integer n => some (.integer (I.integer n))
  | .bool b => some (.bool b)
  | .identifier k x => I.ofName k x
  | .access b => some (.real (I.probe (Tree.accessName b.nature)
      (.ofNet b.positive :: (b.negative.map Tree.ofNet).toList)))
  | .environment q => I.ofName .real q.name
  | .analysis types => some (.bool (I.query (types.map fun a => .literal a.name)))
  | .apply op a b => do (← a.worth).apply op (← b.worth)
  | .negate a => do (← a.worth).negate
  | .invert a => do (← a.worth).invert
  | .abs a => do (← a.worth).abs
  | .cast k a => do (← a.worth).castTo k
  | .select k c a b => do
    (← (← a.worth).as k).choose (← (← c.worth).bool?) (← (← b.worth).as k)
  | .call f x => do return .real (I.realFunction f.name [← (← x.worth).real?])
  | .call₂ f x y => do
    return .real (I.realFunction f.name [← (← x.worth).real?, ← (← y.worth).real?])
  | .slew x r f => do
    return .real (I.realFunction "slew"
      [← (← x.worth).real?, ← (← r.worth).real?, ← (← f.worth).real?])
  | .transition x d r f => do
    return .real (I.realFunction "transition" [← (← x.worth).real?,
      ← (← d.worth).real?, ← (← r.worth).real?, ← (← f.worth).real?])

section Operands

variable {I} {c x y z t : Construction} {d : Worth I}

/-- An operand that has to be real. -/
theorem exists_real_operand {o : Option (Worth I)} {P : I.Real → Prop} :
    (∃ d, o = some d ∧ ∃ m, d.real? = some m ∧ P m) ↔ ∃ m, o = some (.real m) ∧ P m := by
  simp only [Worth.real?_eq_some]
  grind

/-- A choice is between two operands of the kind that is wanted. -/
theorem worth_select {k : Kind} :
    (select k c x y).worth I = some d ↔ ∃ b e f, c.worth I = some (.bool b) ∧
      (y.worth I = some f ∧ f.kind = k) ∧ (x.worth I = some e ∧ e.kind = k) ∧
      e.choose b f = some d := by
  simp only [worth, Option.bind_eq_bind, Option.bind_eq_some_iff, Worth.as,
    Worth.bool?_eq_some, Option.ite_none_right_eq_some, Option.some.injEq]
  grind

/-- A call of a function of one real. -/
theorem worth_call {f : UnaryFunction} :
    (call f x).worth I = some d ↔ ∃ m, x.worth I = some (.real m) ∧
      .real (I.realFunction f.name [m]) = d := by
  simp only [worth, Option.bind_eq_bind, Option.bind_eq_some_iff, exists_real_operand,
    Option.pure_def, Option.some.injEq]

/-- A call of a function of two reals. -/
theorem worth_call₂ {f : BinaryFunction} :
    (call₂ f x y).worth I = some d ↔ ∃ m, x.worth I = some (.real m) ∧
      ∃ n, y.worth I = some (.real n) ∧ .real (I.realFunction f.name [m, n]) = d := by
  simp only [worth, Option.bind_eq_bind, Option.bind_eq_some_iff, exists_real_operand,
    Option.pure_def, Option.some.injEq]

/-- A slew. -/
theorem worth_slew :
    (slew x y z).worth I = some d ↔ ∃ m, x.worth I = some (.real m) ∧
      ∃ r, y.worth I = some (.real r) ∧ ∃ f, z.worth I = some (.real f) ∧
      .real (I.realFunction "slew" [m, r, f]) = d := by
  simp only [worth, Option.bind_eq_bind, Option.bind_eq_some_iff, exists_real_operand,
    Option.pure_def, Option.some.injEq]

/-- A transition. -/
theorem worth_transition :
    (transition x y z t).worth I = some d ↔ ∃ m, x.worth I = some (.real m) ∧
      ∃ p, y.worth I = some (.real p) ∧ ∃ r, z.worth I = some (.real r) ∧
      ∃ f, t.worth I = some (.real f) ∧
      .real (I.realFunction "transition" [m, p, r, f]) = d := by
  simp only [worth, Option.bind_eq_bind, Option.bind_eq_some_iff, exists_real_operand,
    Option.pure_def, Option.some.injEq]

end Operands

/-- The names in a construction, with their kinds. -/
def identifiers : Construction → List (Kind × String)
  | .real _ => []
  | .integer _ => []
  | .bool _ => []
  | .identifier k x => [(k, x)]
  | .access _ => []
  | .environment q => [(.real, q.name)]
  | .analysis _ => []
  | .apply _ a b => a.identifiers ++ b.identifiers
  | .negate a => a.identifiers
  | .invert a => a.identifiers
  | .abs a => a.identifiers
  | .cast _ a => a.identifiers
  | .select _ c a b => c.identifiers ++ a.identifiers ++ b.identifiers
  | .call _ x => x.identifiers
  | .call₂ _ x y => x.identifiers ++ y.identifiers
  | .slew x r f => x.identifiers ++ r.identifiers ++ f.identifiers
  | .transition x d r f => x.identifiers ++ d.identifiers ++ r.identifiers ++ f.identifiers

end Construction

/-! ### Reals as they are written -/

namespace Interpretation

variable (I : Interpretation)

/-- The value of a name has the type of a kind. A bool is an integer that is 0 or 1. -/
inductive Types : Kind → String → Prop
  | real {x : String} {r : I.Real} (h : I.name x = .real r) : Types .real x
  | integer {x : String} {n : I.Integer} (h : I.name x = .integer n) : Types .integer x
  | bool {x : String} {b : Bool} (h : I.name x = .integer (I.bit b)) : Types .bool x

/-- A number of either type, used as a real. -/
def held : I.Num → Number I.Integer I.Num
  | .integer n => .integer n
  | .real x => .real (.real x)

/-- The interpretation in which an integer that is used as a real stays an integer, and operations
on reals follow the types of the numbers they are done to. -/
@[reducible] def written : Interpretation where
  Integer := I.Integer
  Real := I.Num
  natural := I.natural
  decimal digits power := .real (I.decimal digits power)
  promote := .integer
  round x := I.round x.toReal
  integerArith := I.integerArith
  realArith := Number.arith
  negInteger := I.negInteger
  negReal := Number.neg
  complement := I.complement
  integerCompare := I.integerCompare
  realCompare := Number.compare
  realChoice := Number.choose
  integerFunction := I.integerFunction
  realFunction := Number.apply
  infinity := .real I.infinity
  named x := I.held (I.named x)
  probe f xs := .real (I.probe f xs)
  query := I.query
  integerCompare_mirrored := I.integerCompare_mirrored
  realCompare_mirrored op x y := by
    cases x <;> cases y
    case integer.integer m n => exact I.integerCompare_mirrored op m n
    all_goals exact I.realCompare_mirrored op _ _
  integerCompare_eq_toNat := I.integerCompare_eq_toNat
  integerCompare_ne_toNat := I.integerCompare_ne_toNat
  bitXor_toNat := I.bitXor_toNat

end Interpretation

end Stimulus
