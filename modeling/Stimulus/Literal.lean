import Stimulus.Number.Binary64
import Stimulus.Number.Scientific
import Stimulus.Text.Basic

/-!
# Literals

How constants are written. Reals have six digits after the point and a signed exponent of at least
two digits, because that is what the simulator's readers expect; integers are plain decimals and
bools are `0` and `1`.
-/

namespace Stimulus.Literal

/-- Real literals have six digits after the point and two or more in the exponent. -/
def layout : Scientific.Layout :=
  ⟨6, 2⟩

/-- A value other than an infinity or no number, without its sign and rounded to the digits that
a literal has. -/
def rounded (significand : Nat) (power : Int) : Scientific :=
  if significand = 0 then ⟨0, 0⟩
  else match power with
    | .ofNat q => .ofFraction layout.places (significand * Nat.pow 2 q) 1
    | .negSucc q => .ofFraction layout.places significand (Nat.pow 2 (q + 1))

/-- The text of such a value. -/
def magnitude (significand : Nat) (power : Int) : String :=
  (rounded significand power).text layout

/-- The literal of an exact value. There is no literal for what is not a number, so a quotient
stands for it. -/
def ofBinary64 : Binary64 → String
  | .nan => "(0.0/0.0)"
  | .infinite false => "inf"
  | .infinite true => "-inf"
  | .finite negative significand power =>
    (if negative then "-" else "") ++ magnitude significand power

/-- The literal of a real constant. -/
def real (x : Float) : String :=
  ofBinary64 (.ofFloat x)

/-- The literal of an integer constant. -/
def integer (n : Int) : String :=
  toString n

/-- The literal of a bool constant. -/
def bool (b : Bool) : String :=
  if b then "1" else "0"

end Stimulus.Literal
