/-!
# Binary64 numbers as exact values

A real constant is a binary64 number. Its 64 bits hold a sign, eleven bits of exponent and 52 bits
of fraction, which together stand for an exact value `± m · 2 ^ q`, an infinity or no number.
Decoding uses arithmetic on naturals only.

## Main definitions

* `Binary64`, the value of a binary64 number
* `Binary64.ofBits`, `Binary64.ofFloat`
-/

namespace Stimulus

/-- What a binary64 number stands for. -/
inductive Binary64 where
  | nan
  | infinite (negative : Bool)
  /-- The value `significand · 2 ^ power`, negated if `negative`. -/
  | finite (negative : Bool) (significand : Nat) (power : Int)
  deriving DecidableEq, Repr

namespace Binary64

/-- Decodes the 64 bits of a number, given as a natural below `2 ^ 64`. A zero exponent field
marks the numbers without the implicit leading bit. -/
def ofBits (bits : Nat) : Binary64 :=
  let negative := bits / Nat.pow 2 63 % 2 == 1
  let exponent : Nat := bits / Nat.pow 2 52 % Nat.pow 2 11
  let fraction := bits % Nat.pow 2 52
  if exponent = 2047 then
    if fraction = 0 then .infinite negative else .nan
  else if exponent = 0 then .finite negative fraction (-1074)
  else .finite negative (Nat.pow 2 52 + fraction) ((exponent : Int) - 1075)

/-- The value of a machine number. -/
def ofFloat (x : Float) : Binary64 :=
  ofBits x.toBits.toNat

end Binary64

end Stimulus
