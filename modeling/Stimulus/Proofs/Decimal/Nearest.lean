import Mathlib.Algebra.Order.Field.Power
import Mathlib.Data.Rat.Cast.Order
import Mathlib.Tactic.FieldSimp
import Mathlib.Tactic.Linarith
import Mathlib.Tactic.Positivity
import Mathlib.Tactic.Ring
import Stimulus.Number.Scientific

/-!
# The nearest natural

Rounding is a division of naturals, but what it is for is said of exact rationals: the result is not
further than one half from the number that is rounded, and where two naturals are as near as that,
it is the even one. This makes rounding keep the order of numbers, which a rule that rounded some
ties up and others down at will would not do.

## Main definitions

* `IsNearest`: a natural that a number may be rounded to.

## Main results

* `isNearest_roundDiv`, `isNearest_roundScaled`: division rounds to the nearest natural.
* `IsNearest.mono`: the nearest naturals are in the order of the numbers.
-/

namespace Stimulus

/-- A natural is **nearest** to a number if it is not further than one half from it. If it is as far
as that, it is even. -/
structure IsNearest (x : ℚ) (r : ℕ) : Prop where
  within : |(r : ℚ) - x| ≤ 1 / 2
  even : |(r : ℚ) - x| = 1 / 2 → r % 2 = 0

namespace IsNearest

variable {x y : ℚ} {r s n : ℕ}

/-- A natural is nearest to itself. -/
theorem natCast (n : ℕ) : IsNearest n n where
  within := by rw [sub_self, abs_zero]; norm_num
  even h := by rw [sub_self, abs_zero] at h; norm_num at h

/-- **Order is kept**: of two numbers the greater one has the greater nearest natural. -/
theorem mono (hr : IsNearest x r) (hs : IsNearest y s) (hxy : x ≤ y) : r ≤ s := by
  by_contra hlt
  have hsucc : (s : ℚ) + 1 ≤ r := by exact_mod_cast not_le.mp hlt
  obtain ⟨-, hxr⟩ := abs_le.mp hr.within
  obtain ⟨hys, -⟩ := abs_le.mp hs.within
  -- The two are neighbours, and the numbers are equal and lie in the middle between them.
  have hrx : (r : ℚ) - x = 1 / 2 := by linarith
  have hsy : (s : ℚ) - y = -(1 / 2) := by linarith
  have hreven := hr.even (by rw [hrx]; norm_num)
  have hseven := hs.even (by rw [hsy]; norm_num)
  have hneighbours : r = s + 1 := by
    have : (r : ℚ) = s + 1 := by linarith
    exact_mod_cast this
  omega

/-- What is nearest to a number that is not below a natural is not below it either. -/
theorem le_of_natCast_le (hr : IsNearest x r) (h : (n : ℚ) ≤ x) : n ≤ r :=
  (natCast n).mono hr h

/-- What is nearest to a number that is not above a natural is not above it either. -/
theorem le_of_le_natCast (hr : IsNearest x r) (h : x ≤ n) : r ≤ n :=
  hr.mono (natCast n) h

end IsNearest

/-- **Division** to the nearest natural. -/
theorem isNearest_roundDiv (num : ℕ) {den : ℕ} (hden : 0 < den) :
    IsNearest (num / den) (roundDiv num den) := by
  have hpos : (0 : ℚ) < den := by exact_mod_cast hden
  have hsplit : (num : ℚ) = den * (num / den : ℕ) + (num % den : ℕ) := by
    exact_mod_cast (Nat.div_add_mod num den).symm
  -- What is left over decides how far it is to the quotient and to the next natural.
  have hdown : ((num / den : ℕ) : ℚ) - num / den = -((num % den : ℕ) / den) := by
    rw [hsplit]
    field_simp
    ring
  have hup : ((num / den + 1 : ℕ) : ℚ) - num / den = 1 - (num % den : ℕ) / den := by
    push_cast
    linarith
  have hleft : (0 : ℚ) ≤ (num % den : ℕ) / den := by positivity
  have hless : ((num % den : ℕ) : ℚ) / den < 1 := by
    rw [div_lt_one hpos]
    exact_mod_cast Nat.mod_lt num hden
  have hhalf : ((num % den : ℕ) : ℚ) / den = 2 * (num % den : ℕ) / den / 2 := by ring
  unfold roundDiv
  dsimp only
  split
  case isTrue hmore =>
      have hmore : (1 : ℚ) < 2 * (num % den : ℕ) / den := by
        rw [one_lt_div hpos]
        exact_mod_cast hmore
      have hnear : |((num / den + 1 : ℕ) : ℚ) - num / den| < 1 / 2 := by
        rw [hup, abs_of_pos (by linarith)]
        linarith
      exact ⟨hnear.le, fun h => absurd h hnear.ne⟩
  case isFalse hmore =>
      split
      case isTrue hfewer =>
          have hfewer : 2 * ((num % den : ℕ) : ℚ) / den < 1 := by
            rw [div_lt_one hpos]
            exact_mod_cast hfewer
          have hnear : |((num / den : ℕ) : ℚ) - num / den| < 1 / 2 := by
            rw [hdown, abs_neg, abs_of_nonneg hleft]
            linarith
          exact ⟨hnear.le, fun h => absurd h hnear.ne⟩
      case isFalse hfewer =>
          have htie : ((num % den : ℕ) : ℚ) / den = 1 / 2 := by
            have heq : 2 * ((num % den : ℕ) : ℚ) = den := by
              exact_mod_cast Nat.le_antisymm (not_lt.mp hmore) (not_lt.mp hfewer)
            rw [hhalf, heq, div_self hpos.ne']
          rcases Nat.mod_two_eq_zero_or_one (num / den) with heven | hodd
          · rw [heven, Nat.add_zero]
            refine ⟨?_, fun _ => heven⟩
            rw [hdown, htie]
            norm_num
          · rw [hodd]
            refine ⟨?_, fun _ => by omega⟩
            rw [hup, htie]
            norm_num

/-- **Division** of a fraction that is scaled by a power of ten. -/
theorem isNearest_roundScaled (num : ℕ) {den : ℕ} (hden : 0 < den) (k : ℤ) :
    IsNearest (num / den * 10 ^ k) (roundScaled num den k) := by
  cases k with
  | ofNat k =>
      have h := isNearest_roundDiv (num * Nat.pow 10 k) hden
      have heq : ((num * Nat.pow 10 k : ℕ) : ℚ) / den = num / den * 10 ^ Int.ofNat k := by
        rw [Int.ofNat_eq_natCast, zpow_natCast, Nat.pow_eq]
        push_cast
        ring
      rwa [heq] at h
  | negSucc k =>
      have hpow : 0 < Nat.pow 10 (k + 1) := Nat.pow_pos (by decide)
      have h := isNearest_roundDiv num (Nat.mul_pos hden hpow)
      have heq : (num : ℚ) / (den * Nat.pow 10 (k + 1) : ℕ) = num / den * 10 ^ Int.negSucc k := by
        rw [zpow_negSucc, Nat.pow_eq, ← div_eq_mul_inv, div_div]
        push_cast
        rfl
      rwa [heq] at h

end Stimulus
