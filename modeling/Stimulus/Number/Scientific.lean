/-!
# Scientific notation

A positive fraction is rounded to a fixed number of significant decimal digits and written with
one digit before the point. Rounding is exact: it is a division of naturals, in which a tie goes
to the even neighbour.

## Main definitions

* `roundDiv`, division to the nearest natural, ties to even
* `decimalExponent`, the exponent of the leading decimal digit
* `Scientific.ofFraction`, the digits and the exponent of a fraction
* `Scientific.Layout`, the choices of a notation, and `Scientific.text`
-/

namespace Stimulus

/-- The natural nearest to `num / den`; of two that are equally near, the even one. -/
def roundDiv (num den : Nat) : Nat :=
  let q := num / den
  let twice := 2 * (num % den)
  if den < twice then q + 1
  else if twice < den then q
  else q + q % 2

/-- How many decimal digits a natural has. -/
def digitCount (n : Nat) : Nat :=
  if n < 10 then 1 else digitCount (n / 10) + 1
termination_by n
decreasing_by omega

/-- The exponent `e` with `10 ^ e ≤ num / den < 10 ^ (e + 1)`. -/
def decimalExponent (num den : Nat) : Int :=
  if den ≤ num then (digitCount (num / den) : Int) - 1
  else -(digitCount ((den - 1) / num) : Int)

/-- The fraction `num / den` times `10 ^ k`, rounded to the nearest natural. -/
def roundScaled (num den : Nat) (k : Int) : Nat :=
  match k with
  | .ofNat k => roundDiv (num * Nat.pow 10 k) den
  | .negSucc k => roundDiv num (den * Nat.pow 10 (k + 1))

/-- A decimal number in scientific notation: `digits` is read with a point after its first
digit. -/
structure Scientific where
  digits : Nat
  exponent : Int
  deriving DecidableEq, Repr

namespace Scientific

/-- The choices of a notation: how many digits follow the point, and the least number of digits of
the exponent. -/
structure Layout where
  places : Nat
  exponentWidth : Nat
  deriving DecidableEq, Repr

/-- A positive fraction rounded to `places` digits after the point. Digits that are rounded up to
the next power of ten are carried into the exponent. -/
def ofFraction (places num den : Nat) : Scientific :=
  let e := decimalExponent num den
  let d := roundScaled num den (places - e)
  if d < Nat.pow 10 (places + 1) then ⟨d, e⟩ else ⟨d / 10, e + 1⟩

/-- A natural with zeros in front up to a given width. -/
def padded (width n : Nat) : String :=
  let s := toString n
  String.ofList (List.replicate (width - s.length) '0') ++ s

/-- The text of a number: digits, point, digits, `e`, the sign of the exponent (always written)
and its digits. -/
def text (layout : Layout) (s : Scientific) : String :=
  let unit := Nat.pow 10 layout.places
  toString (s.digits / unit) ++ "." ++ padded layout.places (s.digits % unit) ++ "e"
    ++ (if s.exponent < 0 then "-" else "+") ++ padded layout.exponentWidth s.exponent.natAbs

end Scientific

end Stimulus
