import Mathlib.Data.List.Find
import Mathlib.Data.List.Infix
import Mathlib.Data.List.TakeWhile
import Stimulus.Name
import Stimulus.Proofs.Characters

/-!
# Tokens

The words of which the texts of the modelling language are made, read from left to right. Each token
is as long as it can be, and blanks between tokens are skipped. String literals are kept as they are
written, with their escapes.

A text **lexes** to a list of tokens if it does so in front of anything that starts with a
delimiter, and it is **sealed** if it does so in front of anything at all. Texts that are joined at
a delimiter lex to the tokens of both.

## Main definitions

* `Token`, `lex`
* `Lexes`, `Sealed`: how the tokens of a text are found in a longer one

## Main results

* `Delimited.token?_append`: a delimiter ends the token in front of it.
* `token?_suffix`: what is left behind a token is the end of the text.
* `Lexes.append`, `Sealed.append`: the tokens of joined texts.
-/

namespace Stimulus.Grammar

/-! ### Tokens -/

/-- The reserved words of which statements are made. -/
inductive Keyword where
  | begin
  | finish
  | cond
  | otherwise
  | case
  | endcase
  | default
  | loop
  | while
  | for
  deriving DecidableEq, Repr

/-- The spelling of a reserved word. -/
def Keyword.spelling : Keyword → String
  | .begin => "begin"
  | .finish => "end"
  | .cond => "if"
  | .otherwise => "else"
  | .case => "case"
  | .endcase => "endcase"
  | .default => "default"
  | .loop => "repeat"
  | .while => "while"
  | .for => "for"

/-- All reserved words of statements. -/
def Keyword.all : List Keyword :=
  [.begin, .finish, .cond, .otherwise, .case, .endcase, .default, .loop, .while, .for]

/-- The operators of expressions. -/
inductive Operator where
  | plus
  | minus
  | times
  | over
  | rem
  | power
  | shl
  | shr
  | bitAnd
  | bitOr
  | bitXor
  | and
  | or
  | lt
  | le
  | gt
  | ge
  | eq
  | ne
  | not
  | complement
  deriving DecidableEq, Repr

/-- The characters of an operator. -/
def Operator.chars : Operator → List Char
  | .plus => ['+']
  | .minus => ['-']
  | .times => ['*']
  | .over => ['/']
  | .rem => ['%']
  | .power => ['*', '*']
  | .shl => ['<', '<']
  | .shr => ['>', '>']
  | .bitAnd => ['&']
  | .bitOr => ['|']
  | .bitXor => ['^']
  | .and => ['&', '&']
  | .or => ['|', '|']
  | .lt => ['<']
  | .le => ['<', '=']
  | .gt => ['>']
  | .ge => ['>', '=']
  | .eq => ['=', '=']
  | .ne => ['!', '=']
  | .not => ['!']
  | .complement => ['~']

/-- The spelling of an operator. -/
def Operator.spelling (o : Operator) : String :=
  String.ofList o.chars

/-- The marks between and around expressions. -/
inductive Mark where
  | openParen
  | closeParen
  | openBracket
  | closeBracket
  | comma
  | semicolon
  | colon
  | question
  | sign
  | assign
  | contribute
  deriving DecidableEq, Repr

/-- The characters of a mark. -/
def Mark.chars : Mark → List Char
  | .openParen => ['(']
  | .closeParen => [')']
  | .openBracket => ['[']
  | .closeBracket => [']']
  | .comma => [',']
  | .semicolon => [';']
  | .colon => [':']
  | .question => ['?']
  | .sign => ['@']
  | .assign => ['=']
  | .contribute => ['<', '+']

/-- The tokens of the language. -/
inductive Token where
  | keyword (k : Keyword)
  /-- An identifier or the name of a system function. -/
  | word (name : String)
  | number (spelling : String)
  /-- What is written between the quotes of a string literal. -/
  | literal (content : String)
  | operator (o : Operator)
  | mark (m : Mark)
  deriving DecidableEq, Repr

/-! ### Reading tokens -/

/-- The characters that separate tokens and belong to none. -/
def isSpace (c : Char) : Bool :=
  c == ' ' || c == '\t' || c == '\n' || c == '\r'

/-- The characters with which words begin. System functions begin with a dollar sign. -/
def isWordStart (c : Char) : Bool :=
  Name.isStart c || c == '$'

/-- A word is a reserved word or a name. -/
def Token.ofWord (word : String) : Token :=
  match Keyword.all.find? (·.spelling == word) with
  | some k => .keyword k
  | none => .word word

/-- The operators and marks, those of two characters first. -/
def symbols : List (List Char × Token) :=
  [.power, .shl, .shr, .and, .or, .le, .ge, .eq, .ne].map
      (fun o : Operator => (o.chars, .operator o))
    ++ [(Mark.contribute.chars, .mark .contribute)]
    ++ [.plus, .minus, .times, .over, .rem, .bitAnd, .bitOr, .bitXor, .lt, .gt, .not,
      .complement].map (fun o : Operator => (o.chars, .operator o))
    ++ [.openParen, .closeParen, .openBracket, .closeBracket, .comma, .semicolon, .colon,
      .question, .sign, .assign].map (fun m : Mark => (m.chars, .mark m))

/-- Reads an operator or a mark. -/
def symbol? (text : List Char) : Option (Token × List Char) :=
  (symbols.find? (·.1.isPrefixOf text)).map fun (chars, t) => (t, text.drop chars.length)

/-- Splits a text after the digits in front of it. -/
def digits (text : List Char) : List Char × List Char :=
  (text.takeWhile Char.isDigit, text.dropWhile Char.isDigit)

/-- Splits a text after a point and the digits behind it, if it starts so. -/
def fraction : List Char → List Char × List Char
  | '.' :: c :: rest =>
    if c.isDigit then ('.' :: (digits (c :: rest)).1, (digits (c :: rest)).2)
    else ([], '.' :: c :: rest)
  | text => ([], text)

/-- Splits a text after a sign and the digits behind it, if it starts with digits after a sign that
may be missing. -/
def signed : List Char → Option (List Char × List Char)
  | [] => none
  | c :: rest =>
    if c.isDigit then some (digits (c :: rest))
    else if c = '+' ∨ c = '-' then
      match rest with
      | [] => none
      | d :: more =>
        if d.isDigit then some (c :: (digits (d :: more)).1, (digits (d :: more)).2) else none
    else none

/-- Splits a text after an exponent, if it starts with one. -/
def exponent : List Char → List Char × List Char
  | [] => ([], [])
  | c :: rest =>
    if c = 'e' ∨ c = 'E' then
      match signed rest with
      | some (front, back) => (c :: front, back)
      | none => ([], c :: rest)
    else ([], c :: rest)

/-- Reads an unsigned number, which has digits in front, and which may have a fraction and an
exponent. -/
def number (text : List Char) : Token × List Char :=
  let (whole, afterWhole) := digits text
  let (part, afterPart) := fraction afterWhole
  let (power, rest) := exponent afterPart
  (.number (String.ofList (whole ++ part ++ power)), rest)

/-- Reads what is left of a string literal. A backslash protects the character after it. -/
def literal? : List Char → Option (List Char × List Char)
  | [] => none
  | '"' :: rest => some ([], rest)
  | '\\' :: c :: rest => (literal? rest).map fun (content, rest) => ('\\' :: c :: content, rest)
  | c :: rest => (literal? rest).map fun (content, rest) => (c :: content, rest)

/-- Reads the first token of a text that does not start with a blank. -/
def token? : List Char → Option (Token × List Char)
  | [] => none
  | c :: rest =>
    if isWordStart c then
      some (.ofWord (String.ofList (c :: rest.takeWhile Name.isRest)), rest.dropWhile Name.isRest)
    else if c.isDigit then some (number (c :: rest))
    else if c = '"' then
      (literal? rest).map fun (content, rest) => (.literal (String.ofList content), rest)
    else symbol? (c :: rest)

/-- The tokens of a text, if it is made of tokens and blanks. -/
def lex : List Char → Option (List Token)
  | [] => some []
  | c :: rest =>
    if isSpace c then lex rest
    else
      match token? (c :: rest) with
      | none => none
      | some (t, left) =>
        if left.length < (c :: rest).length then (lex left).map (t :: ·) else none
termination_by text => text.length
decreasing_by
  · exact Nat.lt_succ_self _
  · assumption

/-! ### One token after the other -/

/-- Blanks are skipped. -/
theorem lex_space {c : Char} (hc : isSpace c = true) (rest : List Char) :
    lex (c :: rest) = lex rest := by
  rw [lex, if_pos hc]

/-- A text that starts with a token goes on with the tokens of what is left. -/
theorem lex_token {text left : List Char} {t : Token} {c : Char}
    (hc : text.head? = some c) (hspace : isSpace c = false) (ht : token? text = some (t, left))
    (hleft : left.length < text.length) : lex text = (lex left).map (t :: ·) := by
  obtain ⟨rest, rfl⟩ := List.head?_eq_some_iff.mp hc
  rw [lex, if_neg (by simp [hspace]), ht]
  exact if_pos hleft

/-- The tokens of a text that does not start with a blank are its first token and those of what is
left. -/
theorem lex_cons {c : Char} {rest : List Char} {ts : List Token} (hspace : isSpace c = false)
    (h : lex (c :: rest) = some ts) :
    ∃ t left us, token? (c :: rest) = some (t, left) ∧ left.length < (c :: rest).length ∧
      lex left = some us ∧ ts = t :: us := by
  rw [lex, if_neg (by simp [hspace])] at h
  split at h
  case h_1 => cases h
  case h_2 t left htoken =>
      split at h
      case isTrue hleft =>
          obtain ⟨us, hus, rfl⟩ := Option.map_eq_some_iff.mp h
          exact ⟨t, left, us, htoken, hleft, hus, rfl⟩
      case isFalse => cases h

/-! ### Tokens in front of delimiters -/

/-- Characters in front of which every word, number and operator ends. -/
def delimiters : List Char :=
  " \n()[],;:/\"\\".toList

/-- What may stand behind any token: nothing, or something that starts with a delimiter. -/
def Delimited (rest : List Char) : Prop :=
  ∀ c ∈ rest.head?, c ∈ delimiters

instance (rest : List Char) : Decidable (Delimited rest) :=
  inferInstanceAs (Decidable (∀ c ∈ rest.head?, c ∈ delimiters))

/-- The longest front of certain characters ends where others follow. -/
theorem takeWhile_append {p : Char → Bool} {rest : List Char}
    (hrest : ∀ c ∈ rest.head?, p c = false) (text : List Char) :
    (text ++ rest).takeWhile p = text.takeWhile p ∧
      (text ++ rest).dropWhile p = text.dropWhile p ++ rest := by
  induction text with
  | nil =>
      cases rest with
      | nil => simp
      | cons c rest =>
          have hc : p c = false := hrest c rfl
          simp [hc]
  | cons c text ih => cases hc : p c <;> simp [hc, ih]

/-- What does not start with a point has no fraction. -/
theorem fraction_of_head {text : List Char} (h : ∀ c ∈ text.head?, c ≠ '.') :
    fraction text = ([], text) := by
  rw [fraction.eq_def]
  split
  case h_1 => exact absurd rfl (h _ rfl)
  case h_2 => rfl

namespace Delimited

variable {rest : List Char}

/-- Characters of names and digits are no delimiters. -/
theorem of_forall {p : Char → Bool} (hp : ∀ c ∈ delimiters, p c = false) (h : Delimited rest) :
    ∀ c ∈ rest.head?, p c = false :=
  fun c hc => hp c (h c hc)

/-- Digits end in front of a delimiter. -/
theorem digits_append (h : Delimited rest) (text : List Char) :
    digits (text ++ rest) = ((digits text).1, (digits text).2 ++ rest) := by
  obtain ⟨htake, hdrop⟩ := takeWhile_append (h.of_forall (p := Char.isDigit) (by decide)) text
  rw [digits, htake, hdrop, digits]

/-- A fraction ends in front of a delimiter. -/
theorem fraction_append (h : Delimited rest) (text : List Char) :
    fraction (text ++ rest) = ((fraction text).1, (fraction text).2 ++ rest) := by
  have hdigit : ∀ c ∈ rest.head?, c.isDigit = false := h.of_forall (by decide)
  -- The reader looks at two characters, so that a text of one has to be looked at on its own.
  match text with
  | [] =>
      refine fraction_of_head fun c hc => ?_
      have hall : ∀ c ∈ delimiters, c ≠ '.' := by decide
      exact hall c (h c hc)
  | c :: text =>
      by_cases hc : c = '.'
      · subst hc
        match text with
        | [] =>
            cases rest with
            | nil => rfl
            | cons d rest =>
                have hd : d.isDigit = false := hdigit d rfl
                rw [List.singleton_append, fraction, if_neg (by simp [hd])]
                rfl
        | d :: text =>
            have hdigits := h.digits_append (d :: text)
            rw [List.cons_append] at hdigits
            rw [List.cons_append, List.cons_append, fraction, fraction, hdigits]
            split <;> rfl
      · have hhead (text : List Char) : ∀ d ∈ (c :: text).head?, d ≠ '.' := by
          rintro d ⟨⟩
          exact hc
        rw [List.cons_append, fraction_of_head (hhead _), fraction_of_head (hhead _)]
        rfl

/-- Digits with or without a sign end in front of a delimiter. -/
theorem signed_append (h : Delimited rest) (text : List Char) :
    signed (text ++ rest) = (signed text).map fun (front, back) => (front, back ++ rest) := by
  have hdigit : ∀ c ∈ rest.head?, c.isDigit = false := h.of_forall (by decide)
  -- A delimiter is neither a sign nor a digit, be it read first or behind a sign.
  match text with
  | [] =>
      cases rest with
      | nil => rfl
      | cons d rest =>
          have hd : d ∈ delimiters := h d rfl
          have hsign : ¬(d = '+' ∨ d = '-') := by
            rintro (rfl | rfl)
            · exact absurd hd (by decide)
            · exact absurd hd (by decide)
          have hnone : signed (d :: rest) = none := by
            rw [signed.eq_def]
            simp only [hdigit d rfl, Bool.false_eq_true, if_false, if_neg hsign]
          rw [List.nil_append, hnone]
          rfl
  | c :: text =>
      have hdigits := h.digits_append (c :: text)
      rw [List.cons_append] at hdigits
      rw [List.cons_append, signed.eq_def, signed.eq_def (c :: text)]
      dsimp only
      rw [hdigits]
      split
      · rfl
      · split
        · match text with
          | [] =>
              cases rest with
              | nil => rfl
              | cons d rest =>
                  have hd : d.isDigit = false := hdigit d rfl
                  simp [hd]
          | d :: text =>
              have hmore := h.digits_append (d :: text)
              rw [List.cons_append] at hmore
              rw [List.cons_append]
              dsimp only
              rw [hmore]
              split <;> rfl
        · rfl

/-- An exponent ends in front of a delimiter. -/
theorem exponent_append (h : Delimited rest) (text : List Char) :
    exponent (text ++ rest) = ((exponent text).1, (exponent text).2 ++ rest) := by
  match text with
  | [] =>
      cases rest with
      | nil => rfl
      | cons d rest =>
          have hd : d ∈ delimiters := h d rfl
          have hmark : ¬(d = 'e' ∨ d = 'E') := by
            rintro (rfl | rfl)
            · exact absurd hd (by decide)
            · exact absurd hd (by decide)
          have hnone : exponent (d :: rest) = ([], d :: rest) := by
            rw [exponent, if_neg hmark]
          exact hnone
  | c :: text =>
      rw [List.cons_append, exponent, exponent, h.signed_append]
      split
      · cases signed text <;> rfl
      · rfl

/-- A number ends in front of a delimiter. -/
theorem number_append (h : Delimited rest) (text : List Char) :
    number (text ++ rest) = ((number text).1, (number text).2 ++ rest) := by
  simp only [number, h.digits_append, h.fraction_append, h.exponent_append]

/-- No operator and no mark has a delimiter for its second character. -/
theorem symbol?_append (h : Delimited rest) (c : Char) (text : List Char) :
    symbol? (c :: text ++ rest) = (symbol? (c :: text)).map fun (t, left) => (t, left ++ rest) := by
  have hshort : ∀ x ∈ symbols, x.1.length ≤ 2 ∧ ∀ d ∈ x.1.tail, d ∉ delimiters := by decide
  have hstarts :
      ∀ x ∈ symbols, x.1.isPrefixOf (c :: text ++ rest) = x.1.isPrefixOf (c :: text) := by
    rintro ⟨chars, t⟩ hx
    obtain ⟨hlength, hsecond⟩ := hshort _ hx
    -- Only a spelling of two characters could reach from `c` into what follows the text.
    match chars with
    | [] => rfl
    | [a] => rfl
    | [a, b] =>
        cases text with
        | cons d text => rfl
        | nil =>
            cases rest with
            | nil => rfl
            | cons d rest =>
                have hd : b ≠ d := by
                  rintro rfl
                  exact hsecond b List.mem_cons_self (h b rfl)
                simp [List.isPrefixOf, hd]
  rw [symbol?, symbol?, List.find?_congr hstarts]
  cases hfind : symbols.find? (·.1.isPrefixOf (c :: text)) with
  | none => rfl
  | some x =>
      have hx := List.find?_some hfind
      rw [List.isPrefixOf_iff_prefix] at hx
      simp only [Option.map_some, List.drop_append_of_le_length hx.length_le]

/-- **Tokens end in front of a delimiter**, unless they are string literals. -/
theorem token?_append (h : Delimited rest) {c : Char} (hc : c ≠ '"') (text : List Char) :
    token? (c :: text ++ rest) = (token? (c :: text)).map fun (t, left) => (t, left ++ rest) := by
  obtain ⟨htake, hdrop⟩ := takeWhile_append (h.of_forall (p := Name.isRest) (by decide)) text
  have hnumber := h.number_append (c :: text)
  have hsymbol := h.symbol?_append c text
  rw [List.cons_append] at hnumber hsymbol ⊢
  rw [token?, token?, htake, hdrop, hnumber, hsymbol, if_neg hc, if_neg hc]
  split
  · rfl
  · split <;> rfl

end Delimited

/-! ### What is left behind a token -/

/-- Behind the digits there is the end of the text. -/
theorem digits_suffix (text : List Char) : (digits text).2 <:+ text :=
  List.dropWhile_suffix _

/-- Behind a fraction there is the end of the text. -/
theorem fraction_suffix (text : List Char) : (fraction text).2 <:+ text := by
  rw [fraction.eq_def]
  split
  · split
    · exact (digits_suffix _).trans (List.suffix_cons _ _)
    · exact List.suffix_rfl
  · exact List.suffix_rfl

/-- Behind digits with or without a sign there is the end of the text. -/
theorem signed_suffix {text front back : List Char} (h : signed text = some (front, back)) :
    back <:+ text := by
  rw [signed.eq_def] at h
  split at h
  case h_1 => cases h
  case h_2 c rest =>
      split at h
      · cases h
        exact List.dropWhile_suffix _
      · split at h
        · split at h
          · cases h
          · split at h
            · cases h
              exact (List.dropWhile_suffix _).trans (List.suffix_cons _ _)
            · cases h
        · cases h

/-- Behind an exponent there is the end of the text. -/
theorem exponent_suffix (text : List Char) : (exponent text).2 <:+ text := by
  cases text with
  | nil => exact List.suffix_rfl
  | cons c rest =>
      rw [exponent]
      split
      · split
        case h_1 hsigned => exact (signed_suffix hsigned).trans (List.suffix_cons _ _)
        case h_2 => exact List.suffix_rfl
      · exact List.suffix_rfl

/-- **Behind a token** there is the end of the text, unless the token is a string literal. -/
theorem token?_suffix {c : Char} (hc : c ≠ '"') {text left : List Char} {t : Token}
    (h : token? (c :: text) = some (t, left)) : left <:+ text := by
  rw [token?, if_neg hc] at h
  split at h
  · cases h
    exact List.dropWhile_suffix _
  · split at h
    case isTrue hdigit =>
        have hdigits : (digits (c :: text)).2 = (digits text).2 := by
          rw [digits, List.dropWhile_cons_of_pos hdigit, digits]
        cases h
        change (exponent (fraction (digits (c :: text)).2).2).2 <:+ text
        rw [hdigits]
        exact (exponent_suffix _).trans ((fraction_suffix _).trans (digits_suffix _))
    case isFalse =>
        obtain ⟨⟨chars, u⟩, hfind, heq⟩ := Option.map_eq_some_iff.mp h
        cases heq
        have hne : ∀ x ∈ symbols, x.1 ≠ [] := by decide
        obtain ⟨d, chars, rfl⟩ :=
          List.exists_cons_of_ne_nil (hne _ (List.mem_of_find?_eq_some hfind))
        exact List.drop_suffix chars.length text

/-! ### Texts and their tokens -/

/-- The tokens of a text, in front of anything that starts with a delimiter. -/
def Lexes (text : String) (tokens : List Token) : Prop :=
  ∀ rest, Delimited rest → lex (text.toList ++ rest) = (lex rest).map (tokens ++ ·)

/-- The tokens of a text, in front of anything. -/
def Sealed (text : String) (tokens : List Token) : Prop :=
  ∀ rest, lex (text.toList ++ rest) = (lex rest).map (tokens ++ ·)

/-- A text that starts with a delimiter. -/
def Separated (text : String) : Prop :=
  text.toList ≠ [] ∧ Delimited text.toList

instance (text : String) : Decidable (Separated text) :=
  inferInstanceAs (Decidable (text.toList ≠ [] ∧ Delimited text.toList))

variable {s t : String} {ts us : List Token}

/-- A text alone has its tokens. -/
theorem Lexes.lex_eq (h : Lexes s ts) : lex s.toList = some ts := by
  have := h [] (fun c hc => by cases hc)
  rw [List.append_nil] at this
  rw [this, lex]
  simp

/-- A sealed text lexes. -/
theorem Sealed.lexes (h : Sealed s ts) : Lexes s ts :=
  fun rest _ => h rest

/-- A sealed text in front of a text that lexes. -/
theorem Sealed.append_lexes (hs : Sealed s ts) (ht : Lexes t us) : Lexes (s ++ t) (ts ++ us) := by
  intro rest hrest
  rw [String.toList_append, List.append_assoc, hs, ht rest hrest, Option.map_map]
  simp only [Function.comp_def, List.append_assoc]

/-- Two sealed texts. -/
theorem Sealed.append (hs : Sealed s ts) (ht : Sealed t us) : Sealed (s ++ t) (ts ++ us) := by
  intro rest
  rw [String.toList_append, List.append_assoc, hs, ht rest, Option.map_map]
  simp only [Function.comp_def, List.append_assoc]

/-- What follows a text that starts with a delimiter makes no difference. -/
theorem Separated.delimited_append (h : Separated t) (rest : List Char) :
    Delimited (t.toList ++ rest) := by
  intro c hc
  rw [List.head?_append_of_ne_nil _ h.1] at hc
  exact h.2 c hc

/-- A text in front of a sealed one that starts with a delimiter. -/
theorem Lexes.append_sealed (hs : Lexes s ts) (ht : Sealed t us) (h : Separated t) :
    Sealed (s ++ t) (ts ++ us) := by
  intro rest
  rw [String.toList_append, List.append_assoc, hs _ (h.delimited_append rest), ht rest,
    Option.map_map]
  simp only [Function.comp_def, List.append_assoc]

/-- A text in front of one that starts with a delimiter. -/
theorem Lexes.append (hs : Lexes s ts) (ht : Lexes t us) (h : Separated t) :
    Lexes (s ++ t) (ts ++ us) := by
  intro rest hrest
  rw [String.toList_append, List.append_assoc, hs _ (h.delimited_append rest), ht rest hrest,
    Option.map_map]
  simp only [Function.comp_def, List.append_assoc]

/-- The same text with equal tokens. -/
theorem Lexes.of_eq (h : Lexes s ts) (heq : ts = us) : Lexes s us :=
  heq ▸ h

/-- The same text with equal tokens. -/
theorem Sealed.of_eq (h : Sealed s ts) (heq : ts = us) : Sealed s us :=
  heq ▸ h

/-- The empty text has no tokens. -/
theorem sealed_empty : Sealed "" [] := by
  intro rest
  simp

/-- A text of blanks has no tokens. -/
theorem sealed_spaces (h : ∀ c ∈ s.toList, isSpace c = true) : Sealed s [] := by
  intro rest
  generalize s.toList = l at h
  induction l with
  | nil => simp
  | cons c l ih =>
      rw [List.forall_mem_cons] at h
      rw [List.cons_append, lex_space h.1]
      exact ih h.2

end Stimulus.Grammar
