import Stimulus.Proofs.Grammar.Lexeme

/-!
# What numbers stand for

An unsigned number with neither a point nor an exponent is an integer, and any other one is a real.
Its digits are taken together as one natural, and the digits behind the point lower the power of ten
that the exponent gives.

## Main definitions

* `Numeral`, `Numeral.read`: the value of a spelling

## Main results

* `Numeral.read_toString`, `Numeral.read_scientific`: the numbers that are written are read back.
-/

namespace Stimulus.Grammar

/-- The value of an unsigned number. -/
inductive Numeral where
  | integer (n : Nat)
  /-- The real number `digits · 10 ^ power`. -/
  | decimal (digits : Nat) (power : Int)
  deriving DecidableEq, Repr

namespace Numeral

/-- The natural that digits stand for. -/
def ofDigits (cs : List Char) : Nat :=
  Nat.ofDigitChars 10 cs 0

/-- The power of ten that an exponent stands for, with the letter in front of it. -/
def ofExponent : List Char → Int
  | [] => 0
  | _ :: '-' :: ds => -(ofDigits ds : Int)
  | _ :: '+' :: ds => ofDigits ds
  | _ :: ds => ofDigits ds

/-- The value of an unsigned number, by its spelling. -/
def read (spelling : String) : Numeral :=
  let (whole, afterWhole) := digits spelling.toList
  let (part, afterPart) := fraction afterWhole
  let (power, _) := exponent afterPart
  if part = [] ∧ power = [] then .integer (ofDigits whole)
  else .decimal (ofDigits (whole ++ part.drop 1)) (ofExponent power - (part.drop 1).length)

/-- The value of a number by its parts. -/
theorem read_of_parts {s : String} {whole part power : List Char}
    (h : NumberParts whole part power) (hs : s.toList = whole ++ part ++ power) :
    read s = if part = [] ∧ power = [] then .integer (ofDigits whole)
      else .decimal (ofDigits (whole ++ part.drop 1))
        (ofExponent power - (part.drop 1).length) := by
  rw [read, hs, List.append_assoc, h.digits_eq]
  dsimp only
  rw [h.fraction_eq]
  dsimp only
  rw [h.exponent_eq]

/-- The digits of a natural stand for it. -/
@[simp] theorem ofDigits_toString (n : Nat) : ofDigits (toString n).toList = n := by
  rw [ofDigits, Nat.toString_eq_ofList_toDigits, String.toList_ofList,
    Nat.ofDigitChars_ten_toDigits]

/-- Digits behind others lift these by as many powers of ten. -/
theorem ofDigits_append (cs ds : List Char) :
    ofDigits (cs ++ ds) = Nat.pow 10 ds.length * ofDigits cs + ofDigits ds := by
  rw [ofDigits, Nat.ofDigitChars_append, Nat.ofDigitChars_eq_ofDigitChars_zero]
  rfl

/-- Zeros in front change nothing. -/
@[simp] theorem ofDigits_padded (width n : Nat) :
    ofDigits (Scientific.padded width n).toList = n := by
  have hzeros (k : Nat) : ofDigits (List.replicate k '0') = 0 := by
    induction k with
    | zero => rfl
    | succ k ih =>
        rw [List.replicate_succ', ofDigits_append, ih]
        rfl
  rw [Scientific.padded, String.toList_append, String.toList_ofList, ofDigits_append, hzeros,
    ofDigits_toString, Nat.mul_zero, Nat.zero_add]

/-- A natural that is not too large is padded to the width. -/
theorem length_padded {width n : Nat} (hwidth : 0 < width) (hn : n < Nat.pow 10 width) :
    (Scientific.padded width n).toList.length = width := by
  have hlength : (toString n).length ≤ width := by
    rw [Nat.toString_eq_ofList_toDigits, String.length_ofList]
    exact (Nat.length_toDigits_le_iff (by decide) hwidth).mpr hn
  rw [Scientific.padded, String.toList_append, String.toList_ofList, List.length_append,
    List.length_replicate, String.length_toList]
  omega

/-- **A natural is an integer.** -/
theorem read_toString (n : Nat) : read (toString n) = .integer n := by
  have hparts : NumberParts (toString n).toList [] [] :=
    ⟨toList_toString_ne_nil n, fun _ hc => isDigit_of_mem_toString hc, .inl rfl, .inl rfl⟩
  rw [read_of_parts hparts (by simp), if_pos ⟨rfl, rfl⟩, ofDigits_toString]

/-- **A number in scientific notation** is the real number that it was made from. -/
theorem read_scientific {layout : Scientific.Layout} (hplaces : 0 < layout.places)
    (x : Scientific) :
    read (x.text layout) = .decimal x.digits (x.exponent - layout.places) := by
  obtain ⟨mark, hsign, hparts, hs⟩ := numberParts_scientific layout x
  have hbound : x.digits % Nat.pow 10 layout.places < Nat.pow 10 layout.places :=
    Nat.mod_lt _ (Nat.pow_pos (by decide))
  have hpower : ofExponent ('e' :: mark ::
      (Scientific.padded layout.exponentWidth x.exponent.natAbs).toList) = x.exponent := by
    rcases hsign with ⟨rfl, hneg⟩ | ⟨rfl, hpos⟩
    · rw [ofExponent, ofDigits_padded]
      omega
    · rw [ofExponent, ofDigits_padded]
      omega
  have hdigits : Nat.pow 10 layout.places * (x.digits / Nat.pow 10 layout.places)
      + x.digits % Nat.pow 10 layout.places = x.digits :=
    Nat.div_add_mod x.digits (Nat.pow 10 layout.places)
  rw [read_of_parts hparts hs, if_neg (by simp), hpower, List.drop_succ_cons, List.drop_zero,
    ofDigits_append, ofDigits_toString, ofDigits_padded, length_padded hplaces hbound, hdigits]

end Numeral

end Stimulus.Grammar
