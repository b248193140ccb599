import Stimulus.Literal
import Stimulus.Proofs.Decimal.Rounded
import Stimulus.Proofs.Grammar.Numeral

/-!
# Real literals

A binary64 number is an exact rational, and the literal of a finite one denotes another rational,
which a reader finds from its characters alone. The two are not the same, but the literal is the
best one of its layout: there is no nearer number with as many digits, and literals are in the order
of the numbers they were made from. This holds of all finite numbers, those without the implicit
leading bit and both zeros among them.

## Main definitions

* `Binary64.value?`: the exact value of a finite number.
* `Literal.denoted`: the number that a literal denotes.
* `Literal.Spelling`, `Literal.Spelling.Standard`: the parts of a literal and their layout.

## Main results

* `Literal.Spelling.denoted_of`: a literal denotes the digits and the exponent it was made from.
* `Literal.real_rounds`: the literal of a finite number is well formed and correctly rounded, and
  it keeps the order.
-/

namespace Stimulus

/-! ### Values -/

/-- A number with or without its sign. -/
def withSign (negative : Bool) (x : ℚ) : ℚ :=
  if negative then -x else x

/-- The distance of two numbers with the same sign. -/
theorem abs_withSign_sub (negative : Bool) (x y : ℚ) :
    |withSign negative x - withSign negative y| = |x - y| := by
  cases negative with
  | false => rfl
  | true => rw [withSign, withSign, if_pos rfl, if_pos rfl, neg_sub_neg, abs_sub_comm]

/-- A sign does not change the distance from zero. -/
theorem abs_withSign (negative : Bool) (x : ℚ) : |withSign negative x| = |x| := by
  cases negative with
  | false => rfl
  | true => rw [withSign, if_pos rfl, abs_neg]

/-- What keeps the order of numbers without signs, keeps it with signs. -/
theorem withSign_mono {negative negative' : Bool} {x y v w : ℚ} (hx : 0 ≤ x) (hy : 0 ≤ y)
    (hv : 0 ≤ v) (hw : 0 ≤ w) (hle : x ≤ y → v ≤ w) (hge : y ≤ x → w ≤ v) (hzero : x = 0 → v = 0)
    (h : withSign negative x ≤ withSign negative' y) :
    withSign negative v ≤ withSign negative' w := by
  cases negative <;> cases negative'
  case false.false => exact hle h
  case false.true =>
      -- Both numbers are zero, and so is what they become.
      have hle : x ≤ -y := h
      have hx0 : x = 0 := by linarith
      have hw0 : w ≤ 0 := (hge (by linarith)).trans_eq (hzero hx0)
      exact (hzero hx0).trans_le (neg_nonneg.mpr hw0)
  case true.false => exact (neg_nonpos.mpr hv).trans hw
  case true.true => exact neg_le_neg (hge (neg_le_neg_iff.mp h))

/-- The exact value of a number that is neither an infinity nor no number. -/
def Binary64.value? : Binary64 → Option ℚ
  | .finite negative significand power => some (withSign negative (significand * 2 ^ power))
  | .nan | .infinite _ => none

/-- The value of an unsigned number. -/
def Grammar.Numeral.value : Numeral → ℚ
  | .integer n => n
  | .decimal digits power => digits * 10 ^ power

namespace Literal

open Grammar (Numeral)

/-- **The number that a literal denotes**: an unsigned number, with or without a minus in front of
it. -/
def denoted (literal : String) : ℚ :=
  match literal.toList with
  | '-' :: rest => -(Numeral.read (String.ofList rest)).value
  | unsigned => (Numeral.read (String.ofList unsigned)).value

/-! ### The parts of a literal -/

/-- **The parts** of a real literal: whether there is a minus in front, the digit before the point,
the digits behind the point, the sign of the exponent and its digits. -/
structure Spelling where
  negative : Bool
  lead : Char
  places : List Char
  mark : Char
  exponent : List Char

namespace Spelling

/-- The characters of the literal with such parts. -/
def chars (z : Spelling) : List Char :=
  (if z.negative then ['-'] else [])
    ++ z.lead :: '.' :: (z.places ++ 'e' :: z.mark :: z.exponent)

/-- The exponent of the digit before the point. -/
def power (z : Spelling) : ℤ :=
  if z.mark = '-' then -(Numeral.ofDigits z.exponent : ℤ) else Numeral.ofDigits z.exponent

/-- **The layout** of real literals: six digits behind the point, and an exponent with a sign and at
least two digits, which has no zero in front if there are more of them. -/
structure Standard (z : Spelling) : Prop where
  lead : z.lead.isDigit = true
  places : ∀ c ∈ z.places, c.isDigit = true
  length_places : z.places.length = 6
  mark : z.mark = '+' ∨ z.mark = '-'
  exponent : ∀ c ∈ z.exponent, c.isDigit = true
  two_le : 2 ≤ z.exponent.length
  head_ne : 2 < z.exponent.length → z.exponent.head? ≠ some '0'

/-- The parts of the literal with a sign, digits and an exponent. -/
def of (negative : Bool) (s : Scientific) : Spelling where
  negative := negative
  lead := Nat.digitChar (s.digits / Nat.pow 10 layout.places)
  places := (Scientific.padded layout.places (s.digits % Nat.pow 10 layout.places)).toList
  mark := if s.exponent < 0 then '-' else '+'
  exponent := (Scientific.padded layout.exponentWidth s.exponent.natAbs).toList

end Spelling

/-- The first digit of a positive natural is not zero. -/
theorem head?_toString_ne {n : ℕ} (hn : 0 < n) : (toString n).toList.head? ≠ some '0' := by
  rw [Nat.toString_eq_ofList_toDigits, String.toList_ofList]
  induction n using Nat.strongRecOn with
  | ind n ih =>
      rw [Nat.toDigits_eq_if (by decide)]
      split
      case isTrue hlt =>
          rw [List.head?_cons, ne_eq, Option.some_inj, Nat.digitChar_eq_zero]
          exact hn.ne'
      case isFalse hge =>
          have hpos : 0 < n / 10 := by omega
          rw [List.head?_append_of_ne_nil _ (by simp)]
          exact ih (n / 10) (by omega) hpos

/-- What is longer than it has to be has no zero in front. -/
theorem head?_padded_ne {width n : ℕ} (hwidth : 0 < width)
    (h : width < (Scientific.padded width n).toList.length) :
    (Scientific.padded width n).toList.head? ≠ some '0' := by
  rw [Scientific.padded, String.toList_append, String.toList_ofList, List.length_append,
    List.length_replicate, String.length_toList] at h
  have hn : 0 < n := by
    rcases n.eq_zero_or_pos with rfl | hn
    · have hone : (toString 0).length = 1 := by decide
      omega
    · exact hn
  have hfull : width - (toString n).length = 0 := by omega
  rw [Scientific.padded, hfull, List.replicate_zero, String.ofList_nil, String.empty_append]
  exact head?_toString_ne hn

namespace Spelling

variable {negative : Bool} {s : Scientific}

@[simp] theorem negative_of : (of negative s).negative = negative := by
  rw [of]

theorem lead_eq : (of negative s).lead = Nat.digitChar (s.digits / Nat.pow 10 layout.places) := by
  rw [of]

@[simp] theorem places_of : (of negative s).places =
    (Scientific.padded layout.places (s.digits % Nat.pow 10 layout.places)).toList := by
  rw [of]

@[simp] theorem exponent_of : (of negative s).exponent =
    (Scientific.padded layout.exponentWidth s.exponent.natAbs).toList := by
  rw [of]

/-- The unit of the digit before the point. -/
theorem unit_pos : 0 < Nat.pow 10 layout.places :=
  Nat.pow_pos (by decide)

/-- There is one digit in front of the point. -/
theorem toString_lead (negative : Bool) (h : s.digits < 10 ^ (layout.places + 1)) :
    (toString (s.digits / Nat.pow 10 layout.places)).toList = [(of negative s).lead] := by
  have hlt : s.digits / Nat.pow 10 layout.places < 10 := Nat.div_lt_of_lt_mul h
  rw [Nat.toString_eq_ofList_toDigits, String.toList_ofList, Nat.toDigits_of_lt_base hlt,
    lead_eq]

/-- The parts are those of the text. -/
theorem chars_of (negative : Bool) (h : s.digits < 10 ^ (layout.places + 1)) :
    (of negative s).chars = ((if negative then "-" else "") ++ s.text layout).toList := by
  obtain ⟨mark, hmark, -, htext⟩ := Grammar.numberParts_scientific layout s
  have hsign : (if negative then "-" else "" : String).toList = if negative then ['-'] else [] := by
    cases negative <;> rfl
  have hmark : (of negative s).mark = mark := by
    rcases hmark with ⟨rfl, hneg⟩ | ⟨rfl, hpos⟩
    · exact if_pos hneg
    · exact if_neg (not_lt.mpr hpos)
  rw [String.toList_append, hsign, htext, toString_lead negative h, chars, hmark,
    negative_of, places_of, exponent_of, List.append_assoc, List.singleton_append,
    List.cons_append]

/-- The parts are in the layout of literals. -/
theorem standard_of (negative : Bool) (h : s.digits < 10 ^ (layout.places + 1)) :
    (of negative s).Standard where
  lead := by
    have hmem : (of negative s).lead ∈ (toString (s.digits / Nat.pow 10 layout.places)).toList := by
      rw [toString_lead negative h]
      exact List.mem_singleton_self _
    exact Grammar.isDigit_of_mem_toString hmem
  places := by
    rw [places_of]
    exact fun _ hc => Grammar.isDigit_of_mem_padded hc
  length_places := by
    rw [places_of]
    exact Numeral.length_padded (by decide) (Nat.mod_lt _ unit_pos)
  mark := by
    rw [of]
    split
    · exact .inr rfl
    · exact .inl rfl
  exponent := by
    rw [exponent_of]
    exact fun _ hc => Grammar.isDigit_of_mem_padded hc
  two_le := by
    have hwidth : layout.exponentWidth = 2 := rfl
    rw [exponent_of, Scientific.padded, String.toList_append, String.toList_ofList,
      List.length_append, List.length_replicate, String.length_toList]
    omega
  head_ne := by
    rw [exponent_of]
    exact head?_padded_ne (by decide)

/-- The exponent is that of the parts. -/
theorem power_of (negative : Bool) (s : Scientific) : (of negative s).power = s.exponent := by
  rw [power, of, Numeral.ofDigits_padded]
  dsimp only
  split
  case isTrue hneg =>
      rw [if_pos rfl]
      omega
  case isFalse hpos =>
      rw [if_neg (by decide)]
      omega

/-- The digits are those of the parts. -/
theorem digits_of (negative : Bool) (h : s.digits < 10 ^ (layout.places + 1)) :
    Numeral.ofDigits ((of negative s).lead :: (of negative s).places) = s.digits := by
  rw [← List.singleton_append, ← toString_lead negative h, Numeral.ofDigits_append,
    Numeral.ofDigits_toString, (standard_of negative h).length_places, of,
    Numeral.ofDigits_padded]
  exact Nat.div_add_mod s.digits (Nat.pow 10 layout.places)

/-- The digit before the point is zero if there are fewer digits than there is room for. -/
theorem lead_of (negative : Bool) (s : Scientific) :
    (of negative s).lead = '0' ↔ s.digits < 10 ^ layout.places := by
  rw [lead_eq, Nat.digitChar_eq_zero, Nat.div_eq_zero_iff_lt unit_pos, Nat.pow_eq]

end Spelling

/-- A number with a minus in front of it. -/
theorem denoted_minus (text : String) :
    denoted ("-" ++ text) = -(Numeral.read text).value := by
  have hminus : ("-" ++ text).toList = '-' :: text.toList := by
    rw [String.toList_append]
    rfl
  rw [denoted, hminus]
  change -(Numeral.read (String.ofList text.toList)).value = _
  rw [String.ofList_toList]

/-- A number without a minus in front of it. -/
theorem denoted_unsigned {text : String} (h : Grammar.IsNumber text) :
    denoted text = (Numeral.read text).value := by
  obtain ⟨whole, part, power, hparts, htext⟩ := h
  obtain ⟨c, rest, hwhole⟩ := List.exists_cons_of_ne_nil hparts.whole_ne
  have hdigit : c ≠ '-' := by
    rintro rfl
    exact absurd (hparts.whole_digits '-' (hwhole ▸ List.mem_cons_self)) (by decide)
  rw [hwhole, List.cons_append, List.cons_append] at htext
  rw [denoted, htext]
  split
  case h_1 heq => exact absurd (List.cons.inj heq).1 hdigit
  case h_2 => rw [← htext, String.ofList_toList]

/-- **A literal denotes** the digits and the exponent that it was made from. -/
theorem denoted_of (negative : Bool) (s : Scientific) :
    denoted ((if negative then "-" else "") ++ s.text layout)
      = withSign negative (s.value layout.places) := by
  have hread : (Numeral.read (s.text layout)).value = s.value layout.places := by
    rw [Numeral.read_scientific (by decide)]
    rfl
  cases negative with
  | false =>
      rw [if_neg Bool.false_ne_true, String.empty_append,
        denoted_unsigned (Grammar.isNumber_scientific layout s), hread]
      rfl
  | true =>
      rw [if_pos rfl, denoted_minus, hread]
      rfl

/-! ### Rounded values -/

/-- A value other than zero is a fraction, and it is rounded as one. -/
theorem exists_ofFraction {significand : ℕ} (power : ℤ) (h : 0 < significand) :
    ∃ num den : ℕ, 0 < num ∧ 0 < den ∧ (num / den : ℚ) = significand * 2 ^ power ∧
      rounded significand power = .ofFraction layout.places num den := by
  unfold rounded
  rw [if_neg h.ne']
  cases power with
  | ofNat q =>
      refine ⟨_, _, Nat.mul_pos h (Nat.pow_pos (by decide)), Nat.one_pos, ?_, rfl⟩
      rw [Nat.cast_one, div_one, Int.ofNat_eq_natCast, zpow_natCast]
      push_cast
      rfl
  | negSucc q =>
      refine ⟨_, _, h, Nat.pow_pos (by decide), ?_, rfl⟩
      rw [zpow_negSucc, div_eq_mul_inv]
      push_cast
      rfl

/-- Zero is written with zeros. -/
theorem rounded_zero (power : ℤ) : rounded 0 power = ⟨0, 0⟩ :=
  if_pos rfl

/-- What is written for zero stands for it. -/
theorem value_rounded_zero (power : ℤ) : (rounded 0 power).value layout.places = 0 := by
  rw [rounded_zero, Scientific.value, Nat.cast_zero, zero_mul]

/-- The digits of a literal are not more than there is room for, and they are fewer for zero
only. -/
theorem digits_rounded (significand : ℕ) (power : ℤ) :
    (rounded significand power).digits < 10 ^ (layout.places + 1) ∧
      ((rounded significand power).digits < 10 ^ layout.places ↔ significand = 0) := by
  rcases significand.eq_zero_or_pos with rfl | hpos
  · rw [rounded_zero]
    exact ⟨Nat.pow_pos (by decide), iff_of_true (Nat.pow_pos (by decide)) rfl⟩
  · obtain ⟨num, den, hnum, hden, -, heq⟩ := exists_ofFraction power hpos
    obtain ⟨hlower, hupper⟩ := Scientific.normal_ofFraction layout.places hnum hden
    rw [heq]
    exact ⟨hupper, iff_of_false (not_lt.mpr hlower) hpos.ne'⟩

/-- **A value is rounded to the nearest**. -/
theorem within_rounded (significand : ℕ) (power : ℤ) :
    let s := rounded significand power
    |s.value layout.places - significand * 2 ^ power| ≤ 10 ^ (s.exponent - layout.places) / 2 ∧
      (|s.value layout.places - significand * 2 ^ power|
          = 10 ^ (s.exponent - layout.places) / 2 → s.digits % 2 = 0) := by
  intro s
  rcases significand.eq_zero_or_pos with rfl | hpos
  · rw [show s.value layout.places = 0 from value_rounded_zero power, Nat.cast_zero, zero_mul,
      sub_self, abs_zero, show s = _ from rounded_zero power]
    exact ⟨(div_pos (ten_zpow_pos _) two_pos).le, fun _ => rfl⟩
  · obtain ⟨num, den, hnum, hden, hq, heq⟩ := exists_ofFraction power hpos
    rw [show s = _ from heq, ← hq]
    exact Scientific.within_ofFraction layout.places hnum hden

/-- Zero is the number without a significand. -/
theorem value_eq_zero_iff {significand : ℕ} {power : ℤ} :
    (significand * 2 ^ power : ℚ) = 0 ↔ significand = 0 := by
  rw [mul_eq_zero, Nat.cast_eq_zero, or_iff_left (zpow_ne_zero _ two_ne_zero)]

/-- A number that is not zero has a significand. -/
theorem pos_of_value_pos {significand : ℕ} {power : ℤ} (h : (0 : ℚ) < significand * 2 ^ power) :
    0 < significand :=
  Nat.pos_of_ne_zero fun hzero => h.ne' (value_eq_zero_iff.mpr hzero)

/-- Values with digits are not negative. -/
theorem value_nonneg (s : Scientific) : 0 ≤ s.value layout.places :=
  mul_nonneg (Nat.cast_nonneg _) (ten_zpow_pos _).le

/-- **Order is kept** by rounding, without signs. -/
theorem value_rounded_mono {significand significand' : ℕ} {power power' : ℤ}
    (h : (significand * 2 ^ power : ℚ) ≤ significand' * 2 ^ power') :
    (rounded significand power).value layout.places
      ≤ (rounded significand' power').value layout.places := by
  rcases significand.eq_zero_or_pos with rfl | hpos
  · rw [value_rounded_zero]
    exact value_nonneg _
  · have hpos' : 0 < significand' := pos_of_value_pos (lt_of_lt_of_le (by positivity) h)
    obtain ⟨num, den, hnum, hden, hq, heq⟩ := exists_ofFraction power hpos
    obtain ⟨num', den', hnum', hden', hq', heq'⟩ := exists_ofFraction power' hpos'
    rw [heq, heq']
    exact Scientific.value_mono layout.places hnum hden hnum' hden' (by rw [hq, hq']; exact h)

/-- **Digits are carried** into the exponent if they are rounded up to a power of ten. -/
theorem rounded_carried {significand : ℕ} {power k : ℤ}
    (hlower : 10 ^ (k + 1) - 10 ^ (k - layout.places) / 2 ≤ (significand * 2 ^ power : ℚ))
    (hupper : (significand * 2 ^ power : ℚ) < 10 ^ (k + 1)) :
    rounded significand power = ⟨10 ^ layout.places, k + 1⟩ := by
  have hpos : 0 < significand := by
    refine pos_of_value_pos (lt_of_lt_of_le ?_ hlower)
    have hunit := ten_zpow_pos (k - layout.places)
    have hless : (10 : ℚ) ^ (k - layout.places) ≤ 10 ^ (k + 1) := ten_zpow_le (by omega)
    linarith
  obtain ⟨num, den, hnum, hden, hq, heq⟩ := exists_ofFraction power hpos
  rw [heq]
  exact Scientific.ofFraction_carried hnum hden (by rwa [hq]) (by rwa [hq])

/-! ### The literals of floating-point numbers -/

variable {b c : Binary64} {q r : ℚ}

/-- The parts of a finite number. -/
theorem exists_of_value? (h : b.value? = some q) : ∃ negative significand power,
    b = .finite negative significand power ∧ q = withSign negative (significand * 2 ^ power) := by
  cases b with
  | nan => cases h
  | infinite negative => cases h
  | finite negative significand power =>
      exact ⟨negative, significand, power, rfl, (Option.some.inj h).symm⟩

/-- Parts are **the best** for a number if they are those of its literal and in the layout of real
literals, and their first digit is zero if the number is, and only then; if what the literal denotes
is not further from the number than half a unit of the sixth digit behind the point, and the last
digit is even if it is as far as that; and if digits that are rounded up to a power of ten are
carried into the exponent. -/
structure Spelling.Best (z : Spelling) (literal : String) (q : ℚ) : Prop where
  chars_eq : z.chars = literal.toList
  standard : z.Standard
  lead_iff : z.lead = '0' ↔ q = 0
  within : |denoted literal - q| ≤ 10 ^ (z.power - 6) / 2
  even : |denoted literal - q| = 10 ^ (z.power - 6) / 2 →
    Numeral.ofDigits (z.lead :: z.places) % 2 = 0
  carried : ∀ k : ℤ, 10 ^ (k + 1) - 10 ^ (k - 6) / 2 ≤ |q| → |q| < 10 ^ (k + 1) →
    z.lead = '1' ∧ (∀ d ∈ z.places, d = '0') ∧ z.power = k + 1

/-- **The literal of a finite value** has the best parts. -/
theorem best_ofBinary64 (h : b.value? = some q) : ∃ z : Spelling, z.Best (ofBinary64 b) q := by
  obtain ⟨negative, significand, power, rfl, rfl⟩ := exists_of_value? h
  obtain ⟨hroom, hfew⟩ := digits_rounded significand power
  obtain ⟨hwithin, htie⟩ := within_rounded significand power
  have hzero : withSign negative (significand * 2 ^ power : ℚ) = 0 ↔ significand = 0 := by
    rw [← abs_eq_zero, abs_withSign, abs_eq_zero, value_eq_zero_iff]
  refine ⟨.of negative (rounded significand power), Spelling.chars_of negative hroom,
    Spelling.standard_of negative hroom, ?_, ?_, ?_, ?_⟩
  · rw [Spelling.lead_of, hfew, hzero]
  · rw [ofBinary64, magnitude, denoted_of, abs_withSign_sub, Spelling.power_of]
    exact hwithin
  · rw [ofBinary64, magnitude, denoted_of, abs_withSign_sub, Spelling.power_of,
      Spelling.digits_of negative hroom]
    exact htie
  · intro k hlower hupper
    rw [abs_withSign, abs_of_nonneg (by positivity)] at hlower hupper
    rw [Spelling.power_of, Spelling.places_of, Spelling.lead_eq, rounded_carried hlower hupper]
    have hlead : Nat.digitChar (10 ^ layout.places / Nat.pow 10 layout.places) = '1' := by decide
    have hplaces : ∀ d ∈ (Scientific.padded layout.places
        (10 ^ layout.places % Nat.pow 10 layout.places)).toList, d = '0' := by decide
    exact ⟨hlead, hplaces, rfl⟩

/-- **The order of literals** is that of the numbers they were made from. -/
theorem denoted_ofBinary64_mono (hb : b.value? = some q) (hc : c.value? = some r) (h : q ≤ r) :
    denoted (ofBinary64 b) ≤ denoted (ofBinary64 c) := by
  obtain ⟨negative, significand, power, rfl, rfl⟩ := exists_of_value? hb
  obtain ⟨negative', significand', power', rfl, rfl⟩ := exists_of_value? hc
  have hzero (h : (significand * 2 ^ power : ℚ) = 0) :
      (rounded significand power).value layout.places = 0 := by
    rw [value_eq_zero_iff.mp h, value_rounded_zero]
  rw [ofBinary64, ofBinary64, magnitude, magnitude, denoted_of, denoted_of]
  exact withSign_mono (by positivity) (by positivity) (value_nonneg _) (value_nonneg _)
    value_rounded_mono value_rounded_mono hzero h

/-- **The literal of a real constant** is correctly rounded: its parts are the best for the exact
value of the number. The literals of numbers are in the order of the numbers. -/
theorem real_rounds (x : Float) (hx : (Binary64.ofFloat x).value? = some q) :
    (∃ z : Spelling, z.Best (real x) q) ∧
      ∀ (y : Float) (r : ℚ), (Binary64.ofFloat y).value? = some r → q ≤ r →
        denoted (real x) ≤ denoted (real y) :=
  ⟨best_ofBinary64 hx, fun _ _ hy h => denoted_ofBinary64_mono hx hy h⟩

/-- A number whose digits are rounded up to ten, and one that is less than it. -/
theorem real_rounds_ten :
    let q : ℚ := 5629499365328134 * 2 ^ (-49 : ℤ)
    (∃ z : Spelling, z.Best "1.000000e+01" q ∧ z.lead = '1' ∧ z.power = 1) ∧
      denoted "-2.500000e-01" ≤ denoted "1.000000e+01" := by
  intro q
  have hbits : Binary64.ofFloat 9.9999997 = .finite false 5629499365328134 (-49) := by
    decide +kernel
  have hbits' : Binary64.ofFloat (-0.25) = .finite true (Nat.pow 2 52) (-54) := by decide +kernel
  have hliteral : real 9.9999997 = "1.000000e+01" := by decide +kernel
  have hliteral' : real (-0.25) = "-2.500000e-01" := by decide +kernel
  have hx : (Binary64.ofFloat 9.9999997).value? = some q := by
    rw [hbits]
    rfl
  have hy : (Binary64.ofFloat (-0.25)).value? = some (-(2 ^ 52 * 2 ^ (-54 : ℤ))) := by
    rw [hbits']
    rfl
  obtain ⟨⟨z, hz⟩, -⟩ := real_rounds 9.9999997 hx
  obtain ⟨-, hmono⟩ := real_rounds (-0.25) hy
  have hless := hmono 9.9999997 q hx (by norm_num [q])
  rw [hliteral] at hz hless
  rw [hliteral'] at hless
  obtain ⟨hlead, -, hpower⟩ := hz.carried 0 (by norm_num [q, abs_of_pos]) (by norm_num [q])
  exact ⟨⟨z, hz, hlead, hpower⟩, hless⟩

end Literal

end Stimulus
