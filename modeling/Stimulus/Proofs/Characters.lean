import Stimulus.Name
import Stimulus.Text.Basic

/-!
# Characters

What is true of all characters of a given list is decided by looking at the list. That there are
only finitely many characters at all is of no use for that.

## Main results

* `Name.code_of_isRest`, `Text.isRest_of_isBlank`: no character of names is a blank.
* `Text.escape_cases`: how a character is written in a string literal.
-/

namespace Stimulus

/-- A property of the characters of a list. -/
instance (priority := high) decidableForallMem {p : Char → Prop} [DecidablePred p] (l : List Char) :
    Decidable (∀ c ∈ l, p c) :=
  List.decidableBAll p l

/-- A property of the character that may be there. -/
instance (priority := high) decidableForallMemOption {p : Char → Prop} [DecidablePred p]
    (o : Option Char) : Decidable (∀ c ∈ o, p c) :=
  match o with
  | none => .isTrue fun c hc => by cases hc
  | some c => decidable_of_iff (p c) ⟨fun h d hd => by cases hd; exact h, fun h => h c rfl⟩

/-! ### Characters of names -/

/-- The codes of digits. -/
theorem Name.code_of_isDigit {c : Char} (h : c.isDigit = true) : 48 ≤ c.toNat ∧ c.toNat ≤ 57 := by
  have hn : c.toNat = c.val.toNat := rfl
  unfold Char.isDigit at h
  simpa only [ge_iff_le, Bool.and_eq_true, decide_eq_true_eq, UInt32.le_iff_toNat_le,
    Char.reduceVal, UInt32.reduceToNat, ← hn] using h

/-- The codes of the characters with which names start. -/
theorem Name.code_of_isStart {c : Char} (h : isStart c = true) :
    c.toNat = 95 ∨ (65 ≤ c.toNat ∧ c.toNat ≤ 90) ∨ (97 ≤ c.toNat ∧ c.toNat ≤ 122) := by
  have hn : c.toNat = c.val.toNat := rfl
  unfold isStart Char.isAlpha Char.isUpper Char.isLower at h
  simp only [ge_iff_le, Bool.or_eq_true, Bool.and_eq_true, decide_eq_true_eq, beq_iff_eq,
    UInt32.le_iff_toNat_le, Char.reduceVal, UInt32.reduceToNat, ← hn] at h
  rcases h with rfl | h
  · exact .inl rfl
  · exact .inr h

namespace Text

/-- No character of names is a blank. -/
theorem isRest_of_isBlank {c : Char} (h : isBlank c = true) : Name.isRest c = false := by
  simp only [isBlank, Bool.or_eq_true, Bool.and_eq_true, decide_eq_true_eq, beq_iff_eq] at h
  rw [Bool.eq_false_iff]
  intro hrest
  simp only [Name.isRest, Bool.or_eq_true, beq_iff_eq] at hrest
  rcases hrest with (hstart | rfl) | hdigit
  · have := Name.code_of_isStart hstart
    omega
  · revert h
    decide
  · have := Name.code_of_isDigit hdigit
    omega

/-! ### Characters of string literals -/

/-- The characters that are protected by a backslash, with those that stand behind it. -/
def escapes : List (Char × Char) :=
  [('"', '"'), ('\\', '\\'), ('\n', 'n'), ('\t', 't')]

/-- The written form of a character is the character, or two characters of which the first is a
backslash. -/
theorem escape_cases (c : Char) :
    (escape c = [c] ∧ c ≠ '"' ∧ c ≠ '\\') ∨ ∃ d, (c, d) ∈ escapes ∧ escape c = ['\\', d] := by
  unfold escape
  split
  case isTrue h => exact .inr ⟨'"', by rw [h]; decide, rfl⟩
  case isFalse hquote =>
    split
    case isTrue h => exact .inr ⟨'\\', by rw [h]; decide, rfl⟩
    case isFalse hbackslash =>
      split
      case isTrue h => exact .inr ⟨'n', by rw [h]; decide, rfl⟩
      split
      case isTrue h => exact .inr ⟨'t', by rw [h]; decide, rfl⟩
      exact .inl ⟨rfl, hquote, hbackslash⟩

end Text

end Stimulus
