import Stimulus.Proofs.Decimal.Nearest

/-!
# Rounded decimals

A positive number is rounded on the grid of its own leading digit: the exponent of that digit is
found first, and the number is divided by the unit of the last place that is kept. If this gives one
digit more than there is room for, then all of them are zeros but the first, and the leading digit
is carried into the exponent. The value is the same as if it had not been carried.

Two numbers with the same exponent are rounded on one grid. If the exponents are different, then a
power of ten lies between the numbers, and rounding does not pass it. So the order of numbers is
kept.

## Main definitions

* `RoundsTo`: a number is rounded to digits on the grid of its leading digit.
* `Scientific.value`: the number that digits and an exponent stand for.

## Main results

* `decimalExponent_spec`: the exponent of the leading digit.
* `Scientific.ofFraction_spec`: a fraction is rounded on the grid of its leading digit.
* `Scientific.normal_ofFraction`, `Scientific.within_ofFraction`, `Scientific.value_mono`,
  `Scientific.ofFraction_carried`: what comes of that.
-/

namespace Stimulus

/-! ### The leading digit -/

/-- A natural has as many digits as it has to have. -/
theorem digitCount_spec {n : ℕ} (hn : 0 < n) :
    0 < digitCount n ∧ 10 ^ (digitCount n - 1) ≤ n ∧ n < 10 ^ digitCount n := by
  induction n using digitCount.induct with
  | case1 n h =>
      rw [digitCount, if_pos h]
      exact ⟨Nat.one_pos, hn, by simpa using h⟩
  | case2 n h ih =>
      obtain ⟨hpos, hlower, hupper⟩ := ih (by omega)
      obtain ⟨c, hc⟩ : ∃ c, digitCount (n / 10) = c + 1 := ⟨_, (Nat.sub_add_cancel hpos).symm⟩
      rw [hc, Nat.add_sub_cancel] at hlower
      rw [hc] at hupper
      rw [digitCount, if_neg h, hc, Nat.add_sub_cancel]
      refine ⟨Nat.succ_pos _, ?_, ?_⟩
      · rw [Nat.pow_succ]
        omega
      · rw [Nat.pow_succ]
        omega

/-- **The exponent of the leading digit** of a positive fraction. -/
theorem decimalExponent_spec {num den : ℕ} (hnum : 0 < num) (hden : 0 < den) :
    (10 : ℚ) ^ decimalExponent num den ≤ num / den ∧
      (num / den : ℚ) < 10 ^ (decimalExponent num den + 1) := by
  have hnumPos : (0 : ℚ) < num := by exact_mod_cast hnum
  have hdenPos : (0 : ℚ) < den := by exact_mod_cast hden
  unfold decimalExponent
  split
  case isTrue hle =>
      -- The digits in front of the point are counted.
      obtain ⟨hpos, hlower, hupper⟩ := digitCount_spec (Nat.div_pos hle hden)
      obtain ⟨c, hc⟩ : ∃ c, digitCount (num / den) = c + 1 := ⟨_, (Nat.sub_add_cancel hpos).symm⟩
      rw [hc, Nat.add_sub_cancel] at hlower
      rw [hc] at hupper ⊢
      have hlower : 10 ^ c * den ≤ num := (Nat.le_div_iff_mul_le hden).mp hlower
      have hupper : num < 10 ^ (c + 1) * den := (Nat.div_lt_iff_lt_mul hden).mp hupper
      have hexp : ((c + 1 : ℕ) : ℤ) - 1 = c := by omega
      have hexp' : (c : ℤ) + 1 = (c + 1 : ℕ) := rfl
      rw [hexp, hexp', zpow_natCast, zpow_natCast, le_div_iff₀ hdenPos, div_lt_iff₀ hdenPos]
      exact ⟨by exact_mod_cast hlower, by exact_mod_cast hupper⟩
  case isFalse hlt =>
      -- The zeros in front of the leading digit are as many as the inverse has digits.
      have hpred : 0 < (den - 1) / num := Nat.div_pos (by omega) hnum
      obtain ⟨hpos, hlower, hupper⟩ := digitCount_spec hpred
      obtain ⟨c, hc⟩ : ∃ c, digitCount ((den - 1) / num) = c + 1 :=
        ⟨_, (Nat.sub_add_cancel hpos).symm⟩
      rw [hc, Nat.add_sub_cancel] at hlower
      rw [hc] at hupper ⊢
      have hlower : 10 ^ c * num ≤ den - 1 := (Nat.le_div_iff_mul_le hnum).mp hlower
      have hupper : den - 1 < 10 ^ (c + 1) * num := (Nat.div_lt_iff_lt_mul hnum).mp hupper
      have hlower : 10 ^ c * num < den := by omega
      have hupper : den ≤ 10 ^ (c + 1) * num := by omega
      have hexp : -((c + 1 : ℕ) : ℤ) + 1 = -(c : ℤ) := by omega
      rw [hexp, zpow_neg, zpow_neg, zpow_natCast, zpow_natCast, inv_le_comm₀ (by positivity)
        (by positivity), lt_inv_comm₀ (by positivity) (by positivity), inv_div,
        div_le_iff₀ hnumPos, lt_div_iff₀ hnumPos]
      exact ⟨by exact_mod_cast hupper, by exact_mod_cast hlower⟩

/-! ### Rounding on the grid of the leading digit -/

/-- A number whose leading digit has exponent `e` is **rounded** to `d` units of the last of the
places behind that digit. -/
structure RoundsTo (places : ℕ) (x : ℚ) (e : ℤ) (d : ℕ) : Prop where
  lower : 10 ^ e ≤ x
  upper : x < 10 ^ (e + 1)
  nearest : IsNearest (x * 10 ^ (places - e)) d

/-- Powers of ten are positive. -/
theorem ten_zpow_pos (k : ℤ) : (0 : ℚ) < 10 ^ k :=
  zpow_pos (by norm_num) k

/-- Powers of ten grow with the exponent. -/
theorem ten_zpow_le {j k : ℤ} (h : j ≤ k) : (10 : ℚ) ^ j ≤ 10 ^ k :=
  zpow_le_zpow_right₀ (by norm_num) h

/-- A power of ten that is not above another one has no greater exponent. -/
theorem le_of_ten_zpow_lt {j k : ℤ} (h : (10 : ℚ) ^ j < 10 ^ (k + 1)) : j ≤ k :=
  Int.lt_add_one_iff.mp ((zpow_lt_zpow_iff_right₀ (by norm_num)).mp h)

/-- Powers of ten are multiplied. -/
theorem ten_zpow_mul (j k : ℤ) : (10 : ℚ) ^ j * 10 ^ k = 10 ^ (j + k) :=
  (zpow_add₀ (by norm_num) j k).symm

/-- The power of ten above a leading digit, in units of the last place. -/
theorem ten_zpow_succ_mul (places : ℕ) (e : ℤ) :
    (10 : ℚ) ^ (e + 1) * 10 ^ (places - e : ℤ) = (10 ^ (places + 1) : ℕ) := by
  have hexp : e + 1 + (places - e) = ((places + 1 : ℕ) : ℤ) := by omega
  rw [ten_zpow_mul, hexp, zpow_natCast, Nat.cast_pow, Nat.cast_ofNat]

namespace RoundsTo

variable {places : ℕ} {x y : ℚ} {e f : ℤ} {d c : ℕ}

/-- The leading digit is kept, so there are as many digits as places and one more. -/
theorem pow_le (h : RoundsTo places x e d) : 10 ^ places ≤ d := by
  refine h.nearest.le_of_natCast_le ?_
  calc ((10 ^ places : ℕ) : ℚ) = 10 ^ e * 10 ^ (places - e : ℤ) := by
        rw [ten_zpow_mul, add_sub_cancel, zpow_natCast]
        push_cast
        rfl
    _ ≤ x * 10 ^ (places - e : ℤ) := mul_le_mul_of_nonneg_right h.lower (ten_zpow_pos _).le

/-- At most the digits are rounded up to the next power of ten. -/
theorem le_pow (h : RoundsTo places x e d) : d ≤ 10 ^ (places + 1) := by
  refine h.nearest.le_of_le_natCast ?_
  calc x * 10 ^ (places - e : ℤ) ≤ 10 ^ (e + 1) * 10 ^ (places - e : ℤ) :=
        mul_le_mul_of_nonneg_right h.upper.le (ten_zpow_pos _).le
    _ = ((10 ^ (places + 1) : ℕ) : ℚ) := ten_zpow_succ_mul places e

/-- How far the digits are from the number, in units of the last place. -/
theorem distance (places : ℕ) (x : ℚ) (e : ℤ) (d : ℕ) :
    |d * 10 ^ (e - places) - x| = |d - x * 10 ^ (places - e : ℤ)| * 10 ^ (e - places) := by
  have hx : x = x * 10 ^ (places - e : ℤ) * 10 ^ (e - places) := by
    rw [mul_assoc, ten_zpow_mul, sub_add_sub_cancel, sub_self, zpow_zero, mul_one]
  have hunit : |(10 : ℚ) ^ (e - places)| = 10 ^ (e - places) := abs_of_pos (ten_zpow_pos _)
  rw [← hunit, ← abs_mul, sub_mul, hunit, ← hx]

/-- The exponent is that of the leading digit. -/
theorem exponent_le (h : RoundsTo places x e d) (h' : RoundsTo places y f c) (hxy : x ≤ y) :
    e ≤ f :=
  le_of_ten_zpow_lt ((h.lower.trans hxy).trans_lt h'.upper)

/-- **Order is kept.** Numbers with the same exponent are rounded on one grid, and otherwise there
is a power of ten between them. -/
theorem mono (h : RoundsTo places x e d) (h' : RoundsTo places y f c) (hxy : x ≤ y) :
    (d : ℚ) * 10 ^ (e - places) ≤ c * 10 ^ (f - places) := by
  rcases (h.exponent_le h' hxy).eq_or_lt with rfl | hlt
  · have hdc : d ≤ c := h.nearest.mono h'.nearest
      (mul_le_mul_of_nonneg_right hxy (ten_zpow_pos _).le)
    exact mul_le_mul_of_nonneg_right (by exact_mod_cast hdc) (ten_zpow_pos _).le
  · have hd : (d : ℚ) ≤ 10 ^ (places + 1 : ℤ) := by exact_mod_cast h.le_pow
    have hc : (10 : ℚ) ^ (places : ℤ) ≤ c := by exact_mod_cast h'.pow_le
    calc (d : ℚ) * 10 ^ (e - places) ≤ 10 ^ (places + 1 : ℤ) * 10 ^ (e - places) :=
          mul_le_mul_of_nonneg_right hd (ten_zpow_pos _).le
      _ = 10 ^ (e + 1) := by
          rw [ten_zpow_mul]
          congr 1
          ring
      _ ≤ 10 ^ f := ten_zpow_le hlt
      _ = 10 ^ (places : ℤ) * 10 ^ (f - places) := by rw [ten_zpow_mul, add_sub_cancel]
      _ ≤ c * 10 ^ (f - places) := mul_le_mul_of_nonneg_right hc (ten_zpow_pos _).le

/-- A number that is at most half a unit below a power of ten is rounded up to it. -/
theorem eq_pow {k : ℤ} (h : RoundsTo places x e d)
    (hlower : 10 ^ (k + 1) - 10 ^ (k - places) / 2 ≤ x) (hupper : x < 10 ^ (k + 1)) :
    e = k ∧ d = 10 ^ (places + 1) := by
  have hunit : (10 : ℚ) ^ (k - places) ≤ 10 ^ k := ten_zpow_le (by omega)
  have hten : (10 : ℚ) ^ (k + 1) = 10 * 10 ^ k := by rw [zpow_add_one₀ (by norm_num), mul_comm]
  have hpos := ten_zpow_pos k
  have hke : k ≤ e := by
    refine le_of_ten_zpow_lt (lt_of_le_of_lt ?_ h.upper)
    rw [hten] at hlower
    linarith
  obtain rfl : e = k := le_antisymm (le_of_ten_zpow_lt (h.lower.trans_lt hupper)) hke
  refine ⟨rfl, Nat.le_antisymm h.le_pow ?_⟩
  -- The power of ten is the even one of the two naturals that are as near as the bound.
  have hbound : IsNearest ((10 ^ (places + 1) : ℕ) - 1 / 2) (10 ^ (places + 1)) := by
    refine ⟨by rw [sub_sub_cancel]; norm_num, fun _ => ?_⟩
    rw [Nat.pow_succ]
    omega
  refine hbound.mono h.nearest ?_
  calc ((10 ^ (places + 1) : ℕ) : ℚ) - 1 / 2
      = (10 ^ (e + 1) - 10 ^ (e - places) / 2) * 10 ^ (places - e : ℤ) := by
        rw [sub_mul, div_mul_eq_mul_div, ten_zpow_succ_mul, ten_zpow_mul, sub_add_sub_cancel,
          sub_self, zpow_zero]
    _ ≤ x * 10 ^ (places - e : ℤ) := mul_le_mul_of_nonneg_right hlower (ten_zpow_pos _).le

end RoundsTo

/-! ### Fractions in scientific notation -/

namespace Scientific

/-- The number that digits and an exponent stand for, with some of the digits behind the point. -/
def value (places : ℕ) (s : Scientific) : ℚ :=
  s.digits * 10 ^ (s.exponent - places)

variable {places num den num' den' : ℕ}

/-- **A fraction is rounded** on the grid of its leading digit. If there is one digit more than
there is room for, it is carried into the exponent, and the value is the same. -/
theorem ofFraction_spec (places : ℕ) (hnum : 0 < num) (hden : 0 < den) :
    ∃ e d, RoundsTo places (num / den) e d ∧
      (ofFraction places num den).value places = d * 10 ^ (e - places) ∧
      (d < 10 ^ (places + 1) ∧ ofFraction places num den = ⟨d, e⟩ ∨
        d = 10 ^ (places + 1) ∧ ofFraction places num den = ⟨10 ^ places, e + 1⟩) := by
  obtain ⟨hlower, hupper⟩ := decimalExponent_spec hnum hden
  have hrounds : RoundsTo places (num / den) (decimalExponent num den)
      (roundScaled num den (places - decimalExponent num den)) :=
    ⟨hlower, hupper, isNearest_roundScaled num hden _⟩
  refine ⟨_, _, hrounds, ?_⟩
  unfold ofFraction
  dsimp only
  split
  case isTrue hlt => exact ⟨rfl, .inl ⟨hlt, rfl⟩⟩
  case isFalse hge =>
      have heq := Nat.le_antisymm hrounds.le_pow (not_lt.mp hge)
      rw [heq, Nat.pow_succ, Nat.mul_div_cancel _ (by decide)]
      refine ⟨?_, .inr ⟨rfl, rfl⟩⟩
      rw [value, Nat.cast_mul, mul_assoc, add_sub_right_comm, zpow_add_one₀ (by norm_num),
        mul_comm (10 ^ (_ - (places : ℤ)) : ℚ)]
      rfl

/-- **The digits** of a rounded fraction are as many as there is room for, and the first one is not
zero. -/
theorem normal_ofFraction (places : ℕ) (hnum : 0 < num) (hden : 0 < den) :
    10 ^ places ≤ (ofFraction places num den).digits ∧
      (ofFraction places num den).digits < 10 ^ (places + 1) := by
  obtain ⟨e, d, hrounds, -, ⟨hd, heq⟩ | ⟨-, heq⟩⟩ := ofFraction_spec places hnum hden
  · rw [heq]
    exact ⟨hrounds.pow_le, hd⟩
  · rw [heq]
    exact ⟨le_rfl, Nat.pow_lt_pow_succ (by decide)⟩

/-- **A fraction is rounded to the nearest** of the numbers that can be written: it is not further
than half a unit of the last place, and if it is as far, the last digit is even. -/
theorem within_ofFraction (places : ℕ) (hnum : 0 < num) (hden : 0 < den) :
    let s := ofFraction places num den
    |s.value places - num / den| ≤ 10 ^ (s.exponent - places) / 2 ∧
      (|s.value places - num / den| = 10 ^ (s.exponent - places) / 2 → s.digits % 2 = 0) := by
  intro s
  obtain ⟨e, d, hrounds, hvalue, hcases⟩ := ofFraction_spec places hnum hden
  have hunit := ten_zpow_pos (e - places)
  have hwithin : |d * 10 ^ (e - places) - (num / den : ℚ)| ≤ 10 ^ (e - places) / 2 := by
    rw [RoundsTo.distance]
    have := mul_le_mul_of_nonneg_right hrounds.nearest.within hunit.le
    linarith
  rw [show s.value places = _ from hvalue]
  rcases hcases with ⟨-, heq⟩ | ⟨-, heq⟩
  · rw [show s = _ from heq]
    refine ⟨hwithin, fun htie => hrounds.nearest.even ?_⟩
    rw [RoundsTo.distance] at htie
    exact mul_right_cancel₀ hunit.ne' (by rw [htie]; ring)
  · -- Half a unit of the last place is less than one half of the place before it.
    have hcarried : (10 : ℚ) ^ (s.exponent - places) = 10 * 10 ^ (e - places) := by
      rw [show s = _ from heq, add_sub_right_comm, zpow_add_one₀ (by norm_num), mul_comm]
    rw [hcarried]
    exact ⟨by linarith, fun htie => by linarith⟩

/-- **Order is kept** by rounding. -/
theorem value_mono (places : ℕ) (hnum : 0 < num) (hden : 0 < den) (hnum' : 0 < num')
    (hden' : 0 < den') (h : (num / den : ℚ) ≤ num' / den') :
    (ofFraction places num den).value places ≤ (ofFraction places num' den').value places := by
  obtain ⟨e, d, hrounds, heq, -⟩ := ofFraction_spec places hnum hden
  obtain ⟨f, c, hrounds', heq', -⟩ := ofFraction_spec places hnum' hden'
  rw [heq, heq']
  exact hrounds.mono hrounds' h

/-- **Digits are carried** if they are rounded up to a power of ten. -/
theorem ofFraction_carried {k : ℤ} (hnum : 0 < num) (hden : 0 < den)
    (hlower : 10 ^ (k + 1) - 10 ^ (k - places) / 2 ≤ (num / den : ℚ))
    (hupper : (num / den : ℚ) < 10 ^ (k + 1)) :
    ofFraction places num den = ⟨10 ^ places, k + 1⟩ := by
  obtain ⟨e, d, hrounds, -, hcases⟩ := ofFraction_spec places hnum hden
  obtain ⟨rfl, hd⟩ := hrounds.eq_pow hlower hupper
  rcases hcases with ⟨hlt, -⟩ | ⟨-, heq⟩
  · omega
  · exact heq

end Scientific

end Stimulus
