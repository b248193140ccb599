import Stimulus.Expr.Build
import Stimulus.Expr.Text
import Stimulus.Number.Word

/-!
# Values

A **value** is an expression together with its kind, for places where the kind is known only once
the value is there. Operations on values check the kinds and refuse to mix them.

## Main definitions

* `Value`, `Value.as`: the expression, if it has the kind that is wanted
* `Value.apply`, `Value.negate`, `Value.invert`
* `Value.ofInt32?`: the integers that fit the simulator's word
-/

namespace Stimulus

/-- An expression of any kind. -/
structure Value where
  kind : Kind
  expr : Expr kind

namespace Value

/-- The text of a value. -/
def text (v : Value) : String :=
  v.expr.text

/-- Whether a value is a literal. -/
def isConstant (v : Value) : Bool :=
  v.expr.isConstant

/-- Whether a value calls the rounding function. -/
def needsRounding (v : Value) : Bool :=
  v.expr.needsRounding

/-- The expression of a value that has to be of kind `k`; `place` says who wants it so. -/
def asIn (place : Place) (k : Kind) (v : Value) : Except Fault (Expr k) :=
  if h : v.kind = k then .ok (h ▸ v.expr) else .error (.kindMismatch place k v.kind)

/-- The expression of a value that has to be of kind `k`. -/
def as (k : Kind) (v : Value) : Except Fault (Expr k) :=
  v.asIn (.operand k) k

/-- An operator between two reals, if it is defined on them. -/
def applyReal (op : BinaryOp) (a b : Expr .real) : Option Value :=
  match op with
  | .arith op => if h : op.definedOn .real = true then some ⟨_, .arith op h a b⟩ else none
  | .pow => some ⟨_, .call₂ .pow a b⟩
  | .compare op => some ⟨_, .comparison op (op.definedOn_of_ne_bool (by decide)) a b⟩
  | .and => none
  | .or => none

/-- An operator between two integers, if it is defined on them. -/
def applyInteger (op : BinaryOp) (a b : Expr .integer) : Option Value :=
  match op with
  | .arith op => some ⟨_, .arith op op.definedOn_integer a b⟩
  | .pow => some ⟨_, .power a b⟩
  | .compare op => some ⟨_, .comparison op (op.definedOn_of_ne_bool (by decide)) a b⟩
  | .and => none
  | .or => none

/-- An operator between two bools, if it is defined on them. The bitwise operators act as the
connectives. -/
def applyBool (op : BinaryOp) (a b : Expr .bool) : Option Value :=
  match op with
  | .and => some ⟨_, a.and b⟩
  | .arith .bitAnd => some ⟨_, a.and b⟩
  | .or => some ⟨_, a.or b⟩
  | .arith .bitOr => some ⟨_, a.or b⟩
  | .arith .bitXor => some ⟨_, a.xor b⟩
  | .compare op => if h : op.definedOn .bool = true then some ⟨_, .comparison op h a b⟩ else none
  | _ => none

/-- An operator between two expressions of one kind, if it is defined on that kind. -/
def applySame (op : BinaryOp) : {k : Kind} → Expr k → Expr k → Option Value
  | .real, a, b => applyReal op a b
  | .integer, a, b => applyInteger op a b
  | .bool, a, b => applyBool op a b

/-- An operator between two values. They have to be of the same kind, and the operator has to be
defined on it. -/
def apply (op : BinaryOp) (lhs rhs : Value) : Except Fault Value := do
  let place := Place.operator lhs.kind op rhs.kind
  if h : rhs.kind = lhs.kind then
    match applySame op lhs.expr (h ▸ rhs.expr) with
    | some v => .ok v
    | none => .error (.kindMismatch place (op.wantedKind lhs.kind) lhs.kind)
  else .error (.kindMismatch place lhs.kind rhs.kind)

/-- The opposite of a number. -/
def negate (v : Value) : Except Fault Value :=
  if h : v.kind = .bool then .error (.kindMismatch .negation .integer .bool)
  else .ok ⟨_, .neg h v.expr⟩

/-- The opposite truth value of a bool, the bitwise complement of an integer. -/
def invert : Value → Except Fault Value
  | ⟨.bool, e⟩ => .ok ⟨_, e.negated⟩
  | ⟨.integer, e⟩ => .ok ⟨_, .complement e⟩
  | ⟨.real, _⟩ => .error (.kindMismatch .inversion .bool .real)

/-- An integer constant, if it fits a word of 32 bits. -/
def ofInt32? (n : Int) : Except Fault (Expr .integer) :=
  if Word.fitsSigned 32 n then .ok (.integer n)
  else .error (.outOfRange (.integerLiteral n))

end Value

end Stimulus
