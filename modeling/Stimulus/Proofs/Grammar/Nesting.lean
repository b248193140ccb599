import Mathlib.Data.List.Infix
import Stimulus.Expr.Text
import Stimulus.Proofs.Characters

/-!
# Nested texts

A text is **nested** if all its parentheses and brackets are closed in the order in which they were
opened and its string literals, which are plain, are closed as well. Such a text can stand
anywhere without a change to what is around it: the scan for the operators at the top level of a
text comes out of it as it went in, and so does the count of open parentheses.

## Main definitions

* `Nested`
* `Balanced`: a text that closes all its parentheses and no others

## Main results

* `Nested.operators_suffix`: the operators behind a nested text are found.
* `Nested.balanced`
-/

namespace Stimulus.Grammar

/-- A character that opens and closes nothing and protects no other character. -/
def isPlain (c : Char) : Bool :=
  !(['(', ')', '[', ']', '"', '\\'].contains c)

/-- Texts in which all that is opened is closed. -/
inductive Nested : List Char → Prop
  | nil : Nested []
  | plain {c : Char} {rest : List Char} (hc : isPlain c = true) (h : Nested rest) :
      Nested (c :: rest)
  | parens {inner rest : List Char} (hinner : Nested inner) (h : Nested rest) :
      Nested ('(' :: (inner ++ ')' :: rest))
  | brackets {inner rest : List Char} (hinner : Nested inner) (h : Nested rest) :
      Nested ('[' :: (inner ++ ']' :: rest))
  | literal {content rest : List Char} (hcontent : ∀ c ∈ content, isPlain c = true)
      (h : Nested rest) : Nested ('"' :: (content ++ '"' :: rest))

/-- What a plain character is not. -/
theorem isPlain_iff {c : Char} :
    isPlain c = true ↔
      c ≠ '(' ∧ c ≠ ')' ∧ c ≠ '[' ∧ c ≠ ']' ∧ c ≠ '"' ∧ c ≠ '\\' := by
  simp [isPlain]

/-- The number of open parentheses after a text, if none was closed that had not been opened. -/
def openAfter : Nat → List Char → Option Nat
  | depth, [] => some depth
  | depth, c :: rest =>
    if c = '(' then openAfter (depth + 1) rest
    else if c = ')' then if depth = 0 then none else openAfter (depth - 1) rest
    else openAfter depth rest

/-- A text that closes all parentheses it opens, and no others. -/
def Balanced (text : String) : Prop :=
  openAfter 0 text.toList = some 0

instance (text : String) : Decidable (Balanced text) :=
  inferInstanceAs (Decidable (openAfter 0 text.toList = some 0))

namespace Nested

variable {s t : List Char}

/-- Nested texts are joined to a nested text. -/
theorem append (hs : Nested s) (ht : Nested t) : Nested (s ++ t) := by
  induction hs with
  | nil => exact ht
  | plain hc _ ih => exact .plain hc ih
  | parens hinner _ _ ih =>
      rw [List.cons_append, List.append_assoc]
      exact .parens hinner ih
  | brackets hinner _ _ ih =>
      rw [List.cons_append, List.append_assoc]
      exact .brackets hinner ih
  | literal hcontent _ ih =>
      rw [List.cons_append, List.append_assoc]
      exact .literal hcontent ih

/-- Plain characters are a nested text. -/
theorem of_plain (h : ∀ c ∈ s, isPlain c = true) : Nested s := by
  induction s with
  | nil => exact .nil
  | cons c s ih =>
      rw [List.forall_mem_cons] at h
      exact .plain h.1 (ih h.2)

/-- A nested text in parentheses. -/
theorem parenthesised (h : Nested s) : Nested ('(' :: (s ++ [')'])) :=
  .parens h .nil

/-! ### Scanning and counting -/

/-- The scan of a plain character outside all string literals lists it or skips it. -/
theorem scan_plain {c : Char} (hc : isPlain c = true) (depth : Nat) (rest : List Char) :
    Grouping.scan depth false false rest <:+ Grouping.scan depth false false (c :: rest) := by
  obtain ⟨hopen, hclose, hopenBracket, hcloseBracket, hquote, hbackslash⟩ := isPlain_iff.mp hc
  have hescape : (c == '\\') = false := beq_eq_false_iff_ne.mpr hbackslash
  have hscan : Grouping.scan depth false false (c :: rest)
      = if (depth == 0 && Grouping.operatorChars.contains c) = true
        then c :: Grouping.scan depth false false rest
        else Grouping.scan depth false false rest := by
    simp [Grouping.scan, hopen, hclose, hopenBracket, hcloseBracket, hquote, hescape]
  rw [hscan]
  split
  · exact List.suffix_cons c _
  · exact List.suffix_rfl

/-- The scan passes through the plain characters of a string literal. -/
theorem scan_literal {content : List Char} (h : ∀ c ∈ content, isPlain c = true) (depth : Nat)
    (rest : List Char) :
    Grouping.scan depth true false (content ++ rest) = Grouping.scan depth true false rest := by
  induction content with
  | nil => rfl
  | cons c content ih =>
      rw [List.forall_mem_cons] at h
      obtain ⟨-, -, -, -, hquote, hbackslash⟩ := isPlain_iff.mp h.1
      have hescape : (c == '\\') = false := beq_eq_false_iff_ne.mpr hbackslash
      rw [List.cons_append]
      refine Eq.trans ?_ (ih h.2)
      simp [Grouping.scan, hquote, hescape]

/-- **Operators behind a nested text** are found, whatever the depth is. -/
theorem operators_suffix (h : Nested s) (depth : Nat) (rest : List Char) :
    Grouping.scan depth false false rest <:+ Grouping.scan depth false false (s ++ rest) := by
  induction h generalizing depth rest with
  | nil => exact List.suffix_rfl
  | plain hc _ ih => exact (ih depth rest).trans (scan_plain hc depth _)
  | @parens inner s _ _ ihinner ih =>
      have hinner := ihinner (depth + 1) (')' :: (s ++ rest))
      rw [List.cons_append, List.append_assoc]
      exact (ih depth rest).trans hinner
  | @brackets inner s _ _ ihinner ih =>
      have hinner := ihinner (depth + 1) (']' :: (s ++ rest))
      rw [List.cons_append, List.append_assoc]
      exact (ih depth rest).trans hinner
  | @literal content s hcontent _ ih =>
      have hliteral : Grouping.scan depth false false ('"' :: (content ++ '"' :: (s ++ rest)))
          = Grouping.scan depth false false (s ++ rest) :=
        scan_literal hcontent depth ('"' :: (s ++ rest))
      rw [List.cons_append, List.append_assoc, List.cons_append, hliteral]
      exact ih depth rest

/-- Plain characters open and close no parenthesis. -/
theorem openAfter_plain (h : ∀ c ∈ s, isPlain c = true) (depth : Nat) (rest : List Char) :
    openAfter depth (s ++ rest) = openAfter depth rest := by
  induction s with
  | nil => rfl
  | cons c s ih =>
      rw [List.forall_mem_cons] at h
      obtain ⟨hopen, hclose, -⟩ := isPlain_iff.mp h.1
      rw [List.cons_append, openAfter, if_neg hopen, if_neg hclose]
      exact ih h.2

/-- A nested text leaves as many parentheses open as there were. -/
theorem openAfter_append (h : Nested s) (depth : Nat) (rest : List Char) :
    openAfter depth (s ++ rest) = openAfter depth rest := by
  induction h generalizing depth rest with
  | nil => rfl
  | @plain c s hc _ ih =>
      exact (openAfter_plain (s := [c]) (by simpa using hc) depth _).trans (ih depth rest)
  | @parens inner s _ _ ihinner ih =>
      rw [List.cons_append, List.append_assoc]
      exact (ihinner (depth + 1) _).trans (ih depth rest)
  | @brackets inner s _ _ ihinner ih =>
      rw [List.cons_append, List.append_assoc]
      exact (ihinner depth _).trans (ih depth rest)
  | @literal content s hcontent _ ih =>
      rw [List.cons_append, List.append_assoc]
      exact (openAfter_plain hcontent depth _).trans (ih depth rest)

/-- **A nested text is balanced.** -/
theorem balanced {text : String} (h : Nested text.toList) : Balanced text := by
  have hafter := h.openAfter_append 0 []
  rwa [List.append_nil] at hafter

end Nested

/-! ### The forms of expressions -/

variable {s t u : String}

/-- A text of plain characters is nested. -/
theorem nested_plain (h : s.toList.all isPlain = true) : Nested s.toList :=
  .of_plain (List.all_eq_true.mp h)

/-- Nested texts that are joined. -/
theorem nested_append (hs : Nested s.toList) (ht : Nested t.toList) : Nested (s ++ t).toList := by
  rw [String.toList_append]
  exact hs.append ht

/-- A nested text as an operand. -/
theorem nested_operand (h : Nested s.toList) : Nested ("( " ++ s ++ " )").toList := by
  have hopen : "( ".toList = ['(', ' '] := rfl
  have hclose : " )".toList = [' ', ')'] := rfl
  have hinner : Nested (' ' :: (s.toList ++ [' '])) :=
    .plain rfl (h.append (.plain rfl .nil))
  simpa [hopen, hclose] using hinner.parenthesised

/-- A nested text as an argument. -/
theorem nested_arguments (h : Nested s.toList) : Nested ("(" ++ s ++ ")").toList := by
  have hopen : "(".toList = ['('] := rfl
  have hclose : ")".toList = [')'] := rfl
  simpa [hopen, hclose] using h.parenthesised

/-- A binary operation. -/
theorem nested_binaryText {symbol : String} (hsymbol : symbol.toList.all isPlain = true)
    (hs : Nested s.toList) (ht : Nested t.toList) :
    Nested (Expr.binaryText symbol s t).toList := by
  have h := nested_append (nested_append (nested_operand hs) (nested_plain hsymbol))
    (nested_operand ht)
  simpa [Expr.binaryText, String.append_assoc] using h

/-- A unary operation. -/
theorem nested_unaryText {symbol : String} (hsymbol : symbol.toList.all isPlain = true)
    (h : Nested s.toList) : Nested (Expr.unaryText symbol s).toList := by
  have := nested_append (nested_plain hsymbol) (nested_operand h)
  simpa [Expr.unaryText, String.append_assoc] using this

/-- The parts of a choice. -/
theorem choiceText_eq : Expr.choiceText s t u
    = s ++ " ? " ++ ("( " ++ t ++ " )") ++ " : " ++ ("( " ++ u ++ " )") := by
  simp only [Expr.choiceText, String.append_assoc]
  rfl

/-- A choice. -/
theorem nested_choiceText (hs : Nested s.toList) (ht : Nested t.toList) (hu : Nested u.toList) :
    Nested (Expr.choiceText s t u).toList := by
  have hyes := nested_append (nested_append hs (nested_plain (s := " ? ") rfl)) (nested_operand ht)
  have hno := nested_append (nested_append hyes (nested_plain (s := " : ") rfl)) (nested_operand hu)
  rwa [choiceText_eq]

/-- **The question mark of a choice** is found at the top level of its text. -/
theorem question_mem_operators (hs : Nested s.toList) :
    '?' ∈ Grouping.operators (Expr.choiceText s t u) := by
  have hsplit : (Expr.choiceText s t u).toList
      = s.toList ++ ' ' :: '?' :: (" ( " ++ t ++ " ) : ( " ++ u ++ " )").toList := by
    have hmark : " ? ( ".toList = ' ' :: '?' :: " ( ".toList := rfl
    simp only [Expr.choiceText, String.toList_append, hmark, List.append_assoc, List.cons_append]
  rw [Grouping.operators, hsplit]
  exact (hs.operators_suffix 0 _).subset List.mem_cons_self

/-- **A choice is put in parentheses** where no choice is allowed. -/
theorem wrap_choiceText (hs : Nested s.toList) :
    Grouping.wrap Grouping.tighterThanChoice (Expr.choiceText s t u)
      = "( " ++ Expr.choiceText s t u ++ " )" := by
  refine if_neg fun hall => ?_
  have hquestion := List.all_eq_true.mp hall _ (question_mem_operators hs)
  exact absurd hquestion (by decide)

end Stimulus.Grammar
