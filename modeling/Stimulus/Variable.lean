import Stimulus.Value

/-!
# Variables

A declared variable is known by its name and its kind. Where the kind is fixed it is an index;
`AnyVariable` is for places that learn the kind from a value.
-/

namespace Stimulus

/-- A declared variable of kind `k`. -/
structure Variable (k : Kind) where
  name : String
  deriving DecidableEq, Repr

/-- The value of a variable. -/
def Variable.expr {k : Kind} (v : Variable k) : Expr k :=
  .ident v.name

/-- A declared variable of any kind. -/
structure AnyVariable where
  kind : Kind
  handle : Variable kind

namespace AnyVariable

/-- The name of a variable. -/
def name (v : AnyVariable) : String :=
  v.handle.name

/-- The value of a variable. -/
def value (v : AnyVariable) : Value :=
  ⟨v.kind, v.handle.expr⟩

/-- The variable, if it has the kind that is wanted. -/
def as (k : Kind) (v : AnyVariable) : Except Fault (Variable k) :=
  if v.kind = k then .ok ⟨v.name⟩ else .error (.kindMismatch (.variable v.name) k v.kind)

end AnyVariable

end Stimulus
