/-!
# Words

A machine word of a number of bits holds the naturals below a power of two or, if one bit is the
sign, as many integers on both sides of zero. Powers are written as `Nat.pow`, the operation that
the bounds are computed with.
-/

namespace Stimulus.Word

/-- Whether an integer fits a word of `bits` bits, one of which is the sign. -/
def fitsSigned (bits : Nat) (n : Int) : Bool :=
  let bound : Int := Nat.pow 2 (bits - 1)
  n < bound && -bound ≤ n

/-- Whether an integer fits a word of `bits` bits without a sign. -/
def fitsUnsigned (bits : Nat) (n : Int) : Bool :=
  let bound : Int := Nat.pow 2 bits
  0 ≤ n && n < bound

/-- Whether an integer fits a word of `bits` bits in either way. -/
def fits (bits : Nat) (n : Int) : Bool :=
  fitsSigned bits n || fitsUnsigned bits n

end Stimulus.Word
