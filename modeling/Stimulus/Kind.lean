/-!
# Value kinds

A value of the modelling language has one of three **kinds**. Reals and integers are the two
kinds the simulator knows; a bool is an integer that holds 0 or 1, kept apart so that conditions
and numbers cannot be mixed by accident.
-/

namespace Stimulus

/-- The kind of an expression, a variable or a parameter. -/
inductive Kind where
  | real
  | integer
  | bool
  deriving DecidableEq, Repr

namespace Kind

/-- The word for a kind in messages. -/
def title : Kind → String
  | .real => "real"
  | .integer => "integer"
  | .bool => "bool"

/-- The keyword a declaration of this kind starts with. A bool is stored as an integer. -/
def keyword : Kind → String
  | .real => "real"
  | .integer => "integer"
  | .bool => "integer"

end Kind

end Stimulus
