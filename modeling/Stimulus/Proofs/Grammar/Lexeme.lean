import Stimulus.Literal
import Stimulus.Proofs.Grammar.Token
import Stimulus.Proofs.Name

/-!
# Texts of one token

The texts from which larger ones are put together: words, unsigned numbers, operators, marks and
string literals. Each is one token. Words, numbers and most operators need a delimiter after them,
while brackets and string literals end by themselves.

## Main definitions

* `IsWord`, `IsNumber`, `IsContent`: how words, numbers and string literals are written.

## Main results

* `lexes_word`, `lexes_name`, `IsNumber.lexes`, `lexes_operator`
* `sealed_mark`, `sealed_operator`, `sealed_literal`
* `isNumber_scientific`, `sealed_quote`: the literals of the language are written as tokens.
-/

namespace Stimulus.Grammar

variable {s : String}

/-! ### Texts of one token -/

/-- What is no blank. -/
theorem isSpace_eq_false {p : Char → Bool}
    (hp : p ' ' = false ∧ p '\t' = false ∧ p '\n' = false ∧ p '\r' = false) {c : Char}
    (hc : p c = true) : isSpace c = false := by
  obtain ⟨hblank, htab, hfeed, hreturn⟩ := hp
  rw [Bool.eq_false_iff]
  intro hspace
  simp only [isSpace, Bool.or_eq_true, beq_iff_eq] at hspace
  rcases hspace with ((rfl | rfl) | rfl) | rfl
  · exact absurd hc (by simp [hblank])
  · exact absurd hc (by simp [htab])
  · exact absurd hc (by simp [hfeed])
  · exact absurd hc (by simp [hreturn])

/-- A text that is a token and no string literal. -/
theorem lexes_of_token {c : Char} {front : List Char} {tok : Token} (htext : s.toList = c :: front)
    (hspace : isSpace c = false) (hquote : c ≠ '"') (h : token? s.toList = some (tok, [])) :
    Lexes s [tok] := by
  intro rest hrest
  have htoken := hrest.token?_append hquote front
  rw [← htext, h] at htoken
  have hshorter : rest.length < (s.toList ++ rest).length := by
    rw [htext, List.length_append, List.length_cons]
    omega
  rw [lex_token (by rw [htext]; rfl) hspace htoken hshorter]
  rfl

/-- A text that starts with a token, whatever follows it. -/
theorem sealed_of_token {c : Char} {l : List Char} {tok : Token} (htext : s.toList = c :: l)
    (hspace : isSpace c = false)
    (h : ∀ rest, token? (s.toList ++ rest) = some (tok, rest)) : Sealed s [tok] := by
  intro rest
  have hshorter : rest.length < (s.toList ++ rest).length := by
    rw [htext, List.length_append, List.length_cons]
    omega
  rw [lex_token (by rw [htext]; rfl) hspace (h rest) hshorter]
  rfl

/-- A text that is a word: a reserved word, a name or the name of a system function. -/
def IsWord (word : String) : Prop :=
  word.toList.head?.any isWordStart = true ∧ word.toList.tail.all Name.isRest = true

instance (word : String) : Decidable (IsWord word) :=
  inferInstanceAs (Decidable (word.toList.head?.any isWordStart = true ∧
    word.toList.tail.all Name.isRest = true))

/-- A word is one token. -/
theorem lexes_word {w : String} (h : IsWord w) : Lexes w [.ofWord w] := by
  obtain ⟨hstart, hrest⟩ := h
  obtain ⟨c, front, hword⟩ : ∃ c front, w.toList = c :: front := by
    cases hword : w.toList with
    | nil =>
        rw [hword] at hstart
        cases hstart
    | cons c front => exact ⟨c, front, rfl⟩
  rw [hword] at hstart hrest
  change isWordStart c = true at hstart
  have hquote : c ≠ '"' := by
    rintro rfl
    exact absurd hstart (by decide)
  refine lexes_of_token hword (isSpace_eq_false (p := isWordStart) (by decide) hstart) hquote ?_
  rw [List.tail_cons, List.all_eq_true] at hrest
  rw [hword, token?, if_pos hstart, List.takeWhile_eq_self_iff.mpr hrest,
    List.dropWhile_eq_nil_iff.mpr hrest, ← hword, String.ofList_toList]

/-- An identifier that is not reserved is a name. -/
theorem lexes_name {name : String} (h : Name.check name = .ok ()) : Lexes name [.word name] := by
  obtain ⟨hidentifier, hreserved⟩ := Name.check_eq_ok.mp h
  have hword : Token.ofWord name = .word name := by
    have hfind : Keyword.all.find? (·.spelling == name) = none := by
      rw [List.find?_eq_none]
      intro k hk hspelling
      have hall : ∀ k ∈ Keyword.all, k.spelling ∈ Name.reserved := by
        decide
      refine hreserved ?_
      rw [← beq_iff_eq.mp hspelling]
      exact hall k hk
    rw [Token.ofWord, hfind]
  refine (lexes_word ?_).of_eq (by rw [hword])
  unfold Name.isIdentifier at hidentifier
  unfold IsWord
  cases hname : name.toList with
  | nil => simp [hname] at hidentifier
  | cons c rest =>
      rw [hname] at hidentifier
      simp only [Bool.and_eq_true] at hidentifier
      simp [isWordStart, hidentifier.1, hidentifier.2]

/-! ### Numbers -/

/-- Digits in front of something that is no digit. -/
theorem digits_of_all {front rest : List Char} (hfront : ∀ c ∈ front, c.isDigit = true)
    (hrest : ∀ c ∈ rest.head?, c.isDigit = false) : digits (front ++ rest) = (front, rest) := by
  obtain ⟨htake, hdrop⟩ := takeWhile_append hrest front
  rw [digits, htake, hdrop, List.takeWhile_eq_self_iff.mpr hfront,
    List.dropWhile_eq_nil_iff.mpr hfront, List.nil_append]

/-- What a number is made of: digits, and after them a fraction and an exponent or neither. -/
structure NumberParts (whole part power : List Char) : Prop where
  whole_ne : whole ≠ []
  whole_digits : ∀ c ∈ whole, c.isDigit = true
  part_eq : part = [] ∨ ∃ ds, part = '.' :: ds ∧ ds ≠ [] ∧ ∀ c ∈ ds, c.isDigit = true
  power_eq : power = [] ∨ ∃ mark ds, power = 'e' :: mark :: ds ∧ (mark = '+' ∨ mark = '-') ∧
    ds ≠ [] ∧ ∀ c ∈ ds, c.isDigit = true

namespace NumberParts

variable {whole part power : List Char}

/-- The exponent is read up to its end. -/
theorem exponent_eq (h : NumberParts whole part power) : exponent power = (power, []) := by
  rcases h.power_eq with rfl | ⟨mark, ds, rfl, hmark, hne, hds⟩
  · rfl
  · obtain ⟨d, ds, rfl⟩ := List.exists_cons_of_ne_nil hne
    have hd : d.isDigit = true := hds d List.mem_cons_self
    have hmarkDigit : mark.isDigit = false := by
      rcases hmark with rfl | rfl <;> rfl
    have hdigits : digits (d :: ds) = (d :: ds, []) := by
      have hend : ∀ c ∈ ([] : List Char).head?, c.isDigit = false := by simp
      simpa using digits_of_all hds hend
    have hsigned : signed (mark :: d :: ds) = some (mark :: d :: ds, []) := by
      rw [signed, if_neg (by simp [hmarkDigit]), if_pos hmark]
      simp only [hd, if_true, hdigits]
    rw [exponent, if_pos (.inl rfl), hsigned]

/-- The fraction is read up to the exponent. -/
theorem fraction_eq (h : NumberParts whole part power) :
    fraction (part ++ power) = (part, power) := by
  have hpower : ∀ c ∈ power.head?, c.isDigit = false ∧ c ≠ '.' := by
    rcases h.power_eq with rfl | ⟨mark, ds, rfl, -, -, -⟩
    · rintro c ⟨⟩
    · rintro c ⟨⟩
      decide
  rcases h.part_eq with rfl | ⟨ds, rfl, hne, hds⟩
  · exact fraction_of_head fun c hc => (hpower c hc).2
  · obtain ⟨d, ds, rfl⟩ := List.exists_cons_of_ne_nil hne
    have hd : d.isDigit = true := hds d List.mem_cons_self
    have hdigits : digits (d :: ds ++ power) = (d :: ds, power) :=
      digits_of_all hds fun c hc => (hpower c hc).1
    rw [List.cons_append, List.cons_append, fraction, if_pos hd, ← List.cons_append, hdigits]

/-- The digits in front are read up to the fraction, or up to the exponent. -/
theorem digits_eq (h : NumberParts whole part power) :
    digits (whole ++ (part ++ power)) = (whole, part ++ power) := by
  refine digits_of_all h.whole_digits ?_
  rcases h.part_eq with rfl | ⟨ds, rfl, -, -⟩
  · rcases h.power_eq with rfl | ⟨mark, ds, rfl, -, -, -⟩
    · rintro c ⟨⟩
    · rintro c ⟨⟩
      decide
  · rintro c ⟨⟩
    decide

/-- A number is one token. -/
theorem lexes (h : NumberParts whole part power) (hs : s.toList = whole ++ part ++ power) :
    Lexes s [.number s] := by
  obtain ⟨c, front, hwhole⟩ := List.exists_cons_of_ne_nil h.whole_ne
  have hc : c.isDigit = true := h.whole_digits c (by simp [hwhole])
  have hstart : isWordStart c = false := by
    have hcode := Name.code_of_isDigit hc
    rw [Bool.eq_false_iff]
    intro hstart
    simp only [isWordStart, Bool.or_eq_true, beq_iff_eq] at hstart
    rcases hstart with hstart | rfl
    · have := Name.code_of_isStart hstart
      omega
    · exact absurd hc (by decide)
  have hquote : c ≠ '"' := by
    rintro rfl
    exact absurd hc (by decide)
  have htext : s.toList = c :: (front ++ part ++ power) := by
    rw [hs, hwhole, List.cons_append, List.cons_append]
  have hnumber : number s.toList = (.number s, []) := by
    have hsplit : s.toList = whole ++ (part ++ power) := by rw [hs, List.append_assoc]
    rw [number, hsplit, h.digits_eq]
    dsimp only
    rw [h.fraction_eq]
    dsimp only
    rw [h.exponent_eq]
    dsimp only
    rw [← hs, String.ofList_toList]
  refine lexes_of_token htext (isSpace_eq_false (p := Char.isDigit) (by decide) hc) hquote ?_
  rw [htext] at hnumber ⊢
  rw [token?, if_neg (by simp [hstart]), if_pos hc, hnumber]

end NumberParts

/-- A text that is an unsigned number. -/
def IsNumber (s : String) : Prop :=
  ∃ whole part power, NumberParts whole part power ∧ s.toList = whole ++ part ++ power

/-- A number is one token. -/
theorem IsNumber.lexes (h : IsNumber s) : Lexes s [.number s] := by
  obtain ⟨whole, part, power, hparts, hs⟩ := h
  exact hparts.lexes hs

/-- What a number is made of. -/
theorem IsNumber.mem_toList (h : IsNumber s) {c : Char} (hc : c ∈ s.toList) :
    c.isDigit = true ∨ c ∈ ['.', 'e', '+', '-'] := by
  obtain ⟨whole, part, power, hparts, hs⟩ := h
  simp only [hs, List.mem_append] at hc
  rcases hc with (hc | hc) | hc
  · exact .inl (hparts.whole_digits c hc)
  · rcases hparts.part_eq with rfl | ⟨ds, rfl, -, hds⟩
    · cases hc
    · rcases List.mem_cons.mp hc with rfl | hc
      · exact .inr (by decide)
      · exact .inl (hds c hc)
  · rcases hparts.power_eq with rfl | ⟨mark, ds, rfl, hmark, -, hds⟩
    · cases hc
    · simp only [List.mem_cons] at hc
      rcases hc with rfl | rfl | hc
      · exact .inr (by decide)
      · rcases hmark with rfl | rfl <;> exact .inr (by decide)
      · exact .inl (hds c hc)

/-- The digits of a natural. -/
theorem isDigit_of_mem_toString {n : Nat} {c : Char} (hc : c ∈ (toString n).toList) :
    c.isDigit = true :=
  Nat.isDigit_of_mem_toDigits (b := 10) (n := n) (by decide) (by decide) (by simpa using hc)

/-- A natural has digits. -/
theorem toList_toString_ne_nil (n : Nat) : (toString n).toList ≠ [] := by
  simp

/-- A natural is a number. -/
theorem isNumber_natural (n : Nat) : IsNumber (toString n) :=
  ⟨_, [], [],
    ⟨toList_toString_ne_nil n, fun _ hc => isDigit_of_mem_toString hc, .inl rfl, .inl rfl⟩, by simp⟩

/-- Digits with a point between them are a number. -/
theorem isNumber_decimal {whole part : List Char} (hs : s.toList = whole ++ '.' :: part)
    (hwhole : whole ≠ [] ∧ ∀ c ∈ whole, c.isDigit = true)
    (hpart : part ≠ [] ∧ ∀ c ∈ part, c.isDigit = true) : IsNumber s :=
  ⟨whole, '.' :: part, [], ⟨hwhole.1, hwhole.2, .inr ⟨part, rfl, hpart⟩, .inl rfl⟩, by simp [hs]⟩

/-- The digits of a padded natural. -/
theorem isDigit_of_mem_padded {width n : Nat} {c : Char}
    (hc : c ∈ (Scientific.padded width n).toList) : c.isDigit = true := by
  rw [Scientific.padded, String.toList_append, String.toList_ofList, List.mem_append] at hc
  rcases hc with hc | hc
  · rw [(List.mem_replicate.mp hc).2]
    rfl
  · exact isDigit_of_mem_toString hc

/-- A padded natural has digits. -/
theorem toList_padded_ne_nil (width n : Nat) : (Scientific.padded width n).toList ≠ [] := by
  rw [Scientific.padded, String.toList_append]
  exact List.append_ne_nil_of_right_ne_nil _ (toList_toString_ne_nil n)

/-- The parts of a text in scientific notation. -/
theorem numberParts_scientific (layout : Scientific.Layout) (x : Scientific) :
    ∃ mark, (mark = '-' ∧ x.exponent < 0 ∨ mark = '+' ∧ 0 ≤ x.exponent) ∧
      let whole := (toString (x.digits / Nat.pow 10 layout.places)).toList
      let part := '.' ::
        (Scientific.padded layout.places (x.digits % Nat.pow 10 layout.places)).toList
      let power := 'e' :: mark ::
        (Scientific.padded layout.exponentWidth x.exponent.natAbs).toList
      NumberParts whole part power ∧ (x.text layout).toList = whole ++ part ++ power := by
  obtain ⟨mark, hmark, hsign⟩ : ∃ mark,
      (if x.exponent < 0 then "-" else "+" : String).toList = [mark] ∧
        (mark = '-' ∧ x.exponent < 0 ∨ mark = '+' ∧ 0 ≤ x.exponent) := by
    split
    next h => exact ⟨'-', rfl, .inl ⟨rfl, h⟩⟩
    next h => exact ⟨'+', rfl, .inr ⟨rfl, Int.not_lt.mp h⟩⟩
  have hplusMinus : mark = '+' ∨ mark = '-' := hsign.symm.imp And.left And.left
  refine ⟨mark, hsign, ⟨toList_toString_ne_nil _, fun _ hc => isDigit_of_mem_toString hc,
    .inr ⟨_, rfl, toList_padded_ne_nil _ _, fun _ hc => isDigit_of_mem_padded hc⟩,
    .inr ⟨mark, _, rfl, hplusMinus, toList_padded_ne_nil _ _,
      fun _ hc => isDigit_of_mem_padded hc⟩⟩, ?_⟩
  have hpoint : ".".toList = ['.'] := rfl
  have hpower : "e".toList = ['e'] := rfl
  simp only [Scientific.text, String.toList_append, hmark, hpoint, hpower, List.append_assoc,
    List.cons_append, List.nil_append]

/-- A text in scientific notation is a number. -/
theorem isNumber_scientific (layout : Scientific.Layout) (x : Scientific) :
    IsNumber (x.text layout) := by
  obtain ⟨mark, -, hparts, hs⟩ := numberParts_scientific layout x
  exact ⟨_, _, _, hparts, hs⟩

/-! ### Operators, marks and string literals -/

/-- An operator is one token. -/
theorem lexes_operator (o : Operator) : Lexes o.spelling [.operator o] := by
  obtain ⟨c, front, hchars⟩ : ∃ c front, o.chars = c :: front := by
    cases o <;> exact ⟨_, _, rfl⟩
  have htext : o.spelling.toList = c :: front := by
    rw [Operator.spelling, String.toList_ofList, hchars]
  refine lexes_of_token htext ?_ ?_ ?_
  · cases o <;> cases hchars <;> rfl
  · cases o <;> cases hchars <;> decide
  · rw [Operator.spelling, String.toList_ofList]
    cases o <;> rfl

/-- No other operator and no mark starts with a minus sign or a slash. -/
theorem sealed_operator {o : Operator} (h : o = .minus ∨ o = .over) (hs : s.toList = o.chars) :
    Sealed s [.operator o] := by
  rcases h with rfl | rfl
  · refine sealed_of_token hs rfl fun rest => ?_
    rw [hs]
    rfl
  · refine sealed_of_token hs rfl fun rest => ?_
    rw [hs]
    rfl

/-- The marks that are one token whatever follows them. -/
theorem sealed_mark {m : Mark} (h : m ≠ .assign) (hs : s.toList = m.chars) :
    Sealed s [.mark m] := by
  obtain ⟨c, front, hchars⟩ : ∃ c front, m.chars = c :: front := by
    cases m <;> exact ⟨_, _, rfl⟩
  refine sealed_of_token (c := c) (l := front) (by rw [hs, hchars]) ?_ fun rest => ?_
  · cases m <;> cases hchars <;> rfl
  · rw [hs]
    cases m with
    | assign => exact absurd rfl h
    | _ => rfl

/-- A character that needs no protection is read for itself. -/
theorem literal?_cons {c : Char} (hquote : c ≠ '"') (hbackslash : c ≠ '\\') (rest : List Char) :
    literal? (c :: rest) = (literal? rest).map fun (content, rest) => (c :: content, rest) := by
  rw [literal?.eq_def]
  split
  case h_1 heq => cases heq
  case h_2 heq =>
      injection heq with hc
      exact absurd hc hquote
  case h_3 heq =>
      injection heq with hc
      exact absurd hc hbackslash
  case h_4 heq =>
      injection heq with hc hrest
      subst hc hrest
      rfl

/-- What may stand between the quotes of a string literal. A backslash protects the character after
it, and quotes have to be protected. -/
inductive IsContent : List Char → Prop
  | nil : IsContent []
  | escaped (c : Char) {l : List Char} (h : IsContent l) : IsContent ('\\' :: c :: l)
  | plain {c : Char} {l : List Char} (hquote : c ≠ '"') (hbackslash : c ≠ '\\') (h : IsContent l) :
    IsContent (c :: l)

/-- A string literal ends at the first quote that is not protected. -/
theorem IsContent.literal?_eq {l : List Char} (h : IsContent l) (rest : List Char) :
    literal? (l ++ '"' :: rest) = some (l, rest) := by
  induction h with
  | nil => rfl
  | escaped c _ ih =>
      rw [List.cons_append, List.cons_append, literal?, ih]
      rfl
  | plain hquote hbackslash _ ih =>
      rw [List.cons_append, literal?_cons hquote hbackslash, ih]
      rfl

/-- What is read of a string literal is its content, and a quote stands behind it. -/
theorem isContent_of_literal? {l content left : List Char}
    (h : literal? l = some (content, left)) :
    IsContent content ∧ l = content ++ '"' :: left := by
  induction l using literal?.induct generalizing content left with
  | case1 => cases h
  | case2 rest =>
      cases h
      exact ⟨.nil, rfl⟩
  | case3 c rest ih =>
      rw [literal?] at h
      obtain ⟨⟨inner, back⟩, hinner, heq⟩ := Option.map_eq_some_iff.mp h
      cases heq
      obtain ⟨hcontent, rfl⟩ := ih hinner
      exact ⟨.escaped c hcontent, rfl⟩
  | case4 c rest hquote hlast ih =>
      by_cases hbackslash : c = '\\'
      · -- A backslash at the end of the text protects nothing.
        subst hbackslash
        cases rest with
        | nil => cases h
        | cons d rest => exact absurd rfl (hlast d rest rfl)
      · rw [literal?_cons hquote hbackslash] at h
        obtain ⟨⟨inner, back⟩, hinner, heq⟩ := Option.map_eq_some_iff.mp h
        cases heq
        obtain ⟨hcontent, rfl⟩ := ih hinner
        exact ⟨.plain hquote hbackslash hcontent, rfl⟩

/-- A text is written with all that needs it protected. -/
theorem isContent_escape (l : List Char) : IsContent (l.flatMap Text.escape) := by
  induction l with
  | nil => exact .nil
  | cons c l ih =>
      rw [List.flatMap_cons]
      rcases Text.escape_cases c with ⟨hescape, hquote, hbackslash⟩ | ⟨d, -, hescape⟩
      · rw [hescape]
        exact .plain hquote hbackslash ih
      · rw [hescape]
        exact .escaped d ih

/-- A string literal is one token. -/
theorem sealed_literal {l : List Char} (h : IsContent l) :
    Sealed (String.ofList ('"' :: l ++ ['"'])) [.literal (String.ofList l)] := by
  refine sealed_of_token (c := '"') (l := l ++ ['"']) (by simp) rfl fun rest => ?_
  have hstart : isWordStart '"' = false := rfl
  have hdigit : '"'.isDigit = false := rfl
  rw [String.toList_ofList, List.cons_append, List.cons_append, List.append_assoc,
    List.singleton_append, token?, if_neg (by simp [hstart]), if_neg (by simp [hdigit]),
    if_pos rfl, h.literal?_eq]
  rfl

/-- **The tokens of a text** are found in front of a delimiter as well. -/
theorem lex_append {l rest : List Char} {ts : List Token} (h : lex l = some ts)
    (hrest : Delimited rest) : lex (l ++ rest) = (lex rest).map (ts ++ ·) := by
  -- A token is as long as it can be, so that the induction is on the length of the text.
  induction hlength : l.length using Nat.strong_induction_on generalizing l ts with
  | _ n ih =>
      subst hlength
      cases l with
      | nil =>
          rw [lex] at h
          cases h
          simp
      | cons c l =>
          cases hspace : isSpace c with
          | true =>
              rw [lex_space hspace] at h
              rw [List.cons_append, lex_space hspace]
              exact ih l.length (Nat.lt_succ_self _) h rfl
          | false =>
              obtain ⟨t, left, us, htoken, hshorter, hus, rfl⟩ := lex_cons hspace h
              have hleft := ih left.length hshorter hus rfl
              have hcons : (lex (left ++ rest)).map (t :: ·) = (lex rest).map (t :: us ++ ·) := by
                rw [hleft, Option.map_map]
                rfl
              by_cases hquote : c = '"'
              · subst hquote
                obtain ⟨⟨content, back⟩, hliteral, heq⟩ := Option.map_eq_some_iff.mp htoken
                cases heq
                obtain ⟨hcontent, rfl⟩ := isContent_of_literal? hliteral
                have hread := sealed_literal hcontent (left ++ rest)
                rw [← hcons]
                refine Eq.trans (congrArg lex ?_) hread
                simp
              · have hread := hrest.token?_append hquote l
                rw [htoken] at hread
                rw [← hcons]
                refine lex_token rfl hspace hread ?_
                simp only [List.length_append, List.length_cons] at hshorter ⊢
                omega

/-- A text lexes to the tokens that it has alone. -/
theorem lexes_iff {ts : List Token} : Lexes s ts ↔ lex s.toList = some ts :=
  ⟨Lexes.lex_eq, fun h _ hrest => lex_append h hrest⟩

/-- What is written between the quotes of the literal of a text. -/
def quoted (text : String) : String :=
  String.ofList (text.toList.flatMap Text.escape)

/-- The literal of a text is one token. -/
theorem sealed_quote (text : String) : Sealed (Text.quote text) [.literal (quoted text)] :=
  sealed_literal (isContent_escape text.toList)

end Stimulus.Grammar
