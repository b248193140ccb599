import Stimulus.Bench.Basic
import Stimulus.Proofs.Name
import Stimulus.Text.Basic

/-!
# Reading lines

A line of fields is divided at its commas. A line of code has string literals in it, which stand
between quotes, and where a backslash protects the character after it. A literal is read as it is
meant if its text has been escaped. If it has not, then a quote in it ends the literal and a
backslash takes the next character with it, so what is read of it is shorter.

## Main definitions

* `Text.fields`, the fields of a line.
* `Text.pieces?`, the code and the string literals of a line.

## Main results

* `Text.piecesFrom_escape`: a literal whose text is escaped is read as the text.
* `Text.piecesFrom_unescaped`: a literal whose text is not escaped.
* `Text.told_apart`: what can be told from a line of which the rest is known.
* `Text.lines_endLines`: lines that are ended are read as they are.
-/

namespace Stimulus

namespace Text

/-! ### Fields -/

/-- The fields of a line, between its commas. -/
def fields (line : String) : List String :=
  (line.toList.splitOn ',').map String.ofList

/-- There is one field if there are no commas. -/
theorem length_fields {text : String} : (fields text).length = 1 ↔ ',' ∉ text.toList := by
  rw [fields, List.length_map]
  constructor
  · intro hone hcomma
    obtain ⟨before, rest, htext⟩ := List.append_of_mem hcomma
    rw [htext, List.splitOn_append_cons_self, List.length_append] at hone
    have hbefore := List.length_pos_iff.mpr (List.splitOn_ne_nil ',' before)
    have hrest := List.length_pos_iff.mpr (List.splitOn_ne_nil ',' rest)
    omega
  · intro hcomma
    rw [List.splitOn_eq_singleton hcomma]
    rfl

/-- A text without commas is one field. -/
theorem fields_eq {text : String} (h : ',' ∉ text.toList) : fields text = [text] := by
  rw [fields, List.splitOn_eq_singleton h, List.map_singleton, String.ofList_toList]

/-! ### String literals -/

/-- Where a line is read: in code, in a string literal, or behind a backslash in a literal. -/
inductive Spot where
  | code
  | literal
  | guarded

/-- The character that a backslash and another character stand for. -/
def unescape : Char → Char
  | 'n' => '\n'
  | 't' => '\t'
  | c => c

/-- The pieces of a line from a spot on, which are code and the texts of literals in turn. The first
piece starts with the characters `before`, which are given backwards. A literal without an end has
no text. -/
def piecesFrom (spot : Spot) (before : List Char) : List Char → Option (List (List Char))
  | [] =>
    match spot with
    | .code => some [before.reverse]
    | .literal | .guarded => none
  | c :: rest =>
    match spot with
    | .code =>
      if c = '"' then (piecesFrom .literal [] rest).map (before.reverse :: ·)
      else piecesFrom .code (c :: before) rest
    | .literal =>
      if c = '"' then (piecesFrom .code [] rest).map (before.reverse :: ·)
      else if c = '\\' then piecesFrom .guarded before rest
      else piecesFrom .literal (c :: before) rest
    | .guarded => piecesFrom .literal (unescape c :: before) rest

/-- The pieces of a line, which are code and the texts of string literals in turn. -/
def pieces? (line : String) : Option (List String) :=
  (piecesFrom .code [] line.toList).map (·.map String.ofList)

variable {before text rest : List Char}

/-- Code goes on up to a quote. -/
theorem piecesFrom_code (h : '"' ∉ text) :
    piecesFrom .code before (text ++ rest) = piecesFrom .code (text.reverse ++ before) rest := by
  induction text generalizing before with
  | nil => rfl
  | cons c text ih =>
      rw [List.mem_cons, not_or] at h
      rw [List.cons_append, piecesFrom, if_neg (Ne.symm h.1), ih h.2, List.reverse_cons,
        List.append_assoc, List.singleton_append]

/-- Code up to a quote is a piece. -/
theorem piecesFrom_code_quote (h : '"' ∉ text) :
    piecesFrom .code [] (text ++ '"' :: rest) = (piecesFrom .literal [] rest).map (text :: ·) := by
  rw [piecesFrom_code h, piecesFrom, if_pos rfl, List.append_nil, List.reverse_reverse]

/-- Code up to the end of the line is a piece. -/
theorem piecesFrom_code_end (h : '"' ∉ text) : piecesFrom .code [] text = some [text] := by
  have hcode : piecesFrom .code [] (text ++ []) = piecesFrom .code (text.reverse ++ []) [] :=
    piecesFrom_code h
  rw [List.append_nil, List.append_nil] at hcode
  rw [hcode, piecesFrom, List.reverse_reverse]

/-- A text without quotes and backslashes goes on with what follows it in a literal. -/
theorem piecesFrom_literal (hquote : '"' ∉ text) (hbackslash : '\\' ∉ text) :
    piecesFrom .literal before (text ++ rest)
      = piecesFrom .literal (text.reverse ++ before) rest := by
  induction text generalizing before with
  | nil => rfl
  | cons c text ih =>
      rw [List.mem_cons, not_or] at hquote hbackslash
      rw [List.cons_append, piecesFrom, if_neg (Ne.symm hquote.1), if_neg (Ne.symm hbackslash.1),
        ih hquote.2 hbackslash.2, List.reverse_cons, List.append_assoc, List.singleton_append]

/-- A literal ends at a quote. -/
theorem piecesFrom_literal_quote (text : List Char) :
    piecesFrom .literal text.reverse ('"' :: rest)
      = (piecesFrom .code [] rest).map (text :: ·) := by
  rw [piecesFrom, if_pos rfl, List.reverse_reverse]

/-- **A literal whose text is escaped** is read as the text. -/
theorem piecesFrom_escape (text : List Char) :
    piecesFrom .literal before (text.flatMap escape ++ rest)
      = piecesFrom .literal (text.reverse ++ before) rest := by
  induction text generalizing before with
  | nil => rfl
  | cons c text ih =>
      have hchar (more : List Char) : piecesFrom .literal before (escape c ++ more)
          = piecesFrom .literal (c :: before) more := by
        unfold escape
        split_ifs with hquote hbackslash hline htab
        · subst hquote; rfl
        · subst hbackslash; rfl
        · subst hline; rfl
        · subst htab; rfl
        · rw [List.singleton_append, piecesFrom, if_neg hquote, if_neg hbackslash]
      rw [List.flatMap_cons, List.append_assoc, hchar, ih, List.reverse_cons, List.append_assoc,
        List.singleton_append]

/-- The first piece of a literal that ends at a quote. -/
theorem length_of_literal_quote {piece : List Char} {pieces : List (List Char)}
    (h : piecesFrom .literal before ('"' :: rest) = some (piece :: pieces)) :
    piece.length = before.length := by
  rw [piecesFrom, if_pos rfl] at h
  obtain ⟨_, -, heq⟩ := Option.map_eq_some_iff.mp h
  rw [← (List.cons.inj heq).1, List.length_reverse]

/-- A literal whose text is not escaped: if there is a quote or a backslash in it, then what is read
is shorter, or the backslash at its end protects the quote behind it. -/
theorem piecesFrom_unescaped {piece : List Char} {pieces : List (List Char)} :
    ∀ {text before : List Char},
      piecesFrom .literal before (text ++ '"' :: rest) = some (piece :: pieces) →
      ('"' ∉ text ∧ '\\' ∉ text) ∨ piece.length < before.length + text.length ∨
      text.getLast? = some '\\' ∧
        ∃ before', piecesFrom .literal before' rest = some (piece :: pieces)
  | [], _, _ => .inl ⟨List.not_mem_nil, List.not_mem_nil⟩
  | [c], before, h => by
      by_cases hquote : c = '"'
      · subst hquote
        have := length_of_literal_quote h
        exact .inr (.inl (by simp only [List.length_singleton]; omega))
      by_cases hbackslash : c = '\\'
      · subst hbackslash
        exact .inr (.inr ⟨rfl, _, h⟩)
      · exact .inl ⟨by simpa using Ne.symm hquote, by simpa using Ne.symm hbackslash⟩
  | c :: d :: text, before, h => by
      by_cases hquote : c = '"'
      · subst hquote
        have := length_of_literal_quote h
        exact .inr (.inl (by simp only [List.length_cons]; omega))
      rw [List.cons_append, piecesFrom, if_neg hquote] at h
      by_cases hbackslash : c = '\\'
      · -- The backslash and the character behind it are read as one character.
        rw [if_pos hbackslash, List.cons_append, piecesFrom] at h
        rcases piecesFrom_unescaped h with ⟨hq, hb⟩ | hshort | ⟨hlast, hrest⟩
        · rw [piecesFrom_literal hq hb] at h
          have := length_of_literal_quote h
          simp only [List.length_append, List.length_reverse, List.length_cons] at this ⊢
          exact .inr (.inl (by omega))
        · simp only [List.length_cons] at hshort ⊢
          exact .inr (.inl (by omega))
        · refine .inr (.inr ⟨?_, hrest⟩)
          rw [List.getLast?_cons, List.getLast?_cons, hlast]
          rfl
      · rw [if_neg hbackslash] at h
        have h : piecesFrom .literal (c :: before) ((d :: text) ++ '"' :: rest)
          = some (piece :: pieces) := h
        rcases piecesFrom_unescaped h with ⟨hq, hb⟩ | hshort | ⟨hlast, hrest⟩
        · exact .inl ⟨List.not_mem_cons_of_ne_of_not_mem (Ne.symm hquote) hq,
            List.not_mem_cons_of_ne_of_not_mem (Ne.symm hbackslash) hb⟩
        · simp only [List.length_cons] at hshort ⊢
          exact .inr (.inl (by omega))
        · refine .inr (.inr ⟨?_, hrest⟩)
          rw [List.getLast?_cons, hlast]
          rfl

/-! ### Texts around a separator -/

/-- Two texts that are divided at the first separator. -/
theorem divided_inj {sep : Char} {a b x y : List Char} (ha : sep ∉ a) (hb : sep ∉ b)
    (h : a ++ sep :: x = b ++ sep :: y) : a = b ∧ x = y := by
  have hsplit := congrArg (List.splitOn sep) h
  rw [List.splitOn_append_cons_self_of_not_mem ha,
    List.splitOn_append_cons_self_of_not_mem hb] at hsplit
  obtain rfl := (List.cons.inj hsplit).1
  exact ⟨rfl, (List.cons.inj (List.append_cancel_left h)).2⟩

/-- A text and a number behind it can be told apart if all that stands between them is known and
ends in a blank. -/
theorem numbered_inj {a b front back : List Char} {m n : Nat}
    (h : a ++ (front ++ ' ' :: ((toString m).toList ++ back))
      = b ++ (front ++ ' ' :: ((toString n).toList ++ back))) : a = b ∧ m = n := by
  have hblank (n : Nat) : ' ' ∉ (toString n).toList.reverse := fun hmem => by
    have := Name.isRest_of_mem_toString (List.mem_reverse.mp hmem)
    revert this
    decide
  have hassoc (a digits : List Char) : a ++ (front ++ ' ' :: (digits ++ back))
      = (digits.reverse ++ ' ' :: (a ++ front).reverse).reverse ++ back := by
    simp
  rw [hassoc, hassoc] at h
  obtain ⟨hdigits, hfront⟩ := divided_inj (hblank m) (hblank n)
    (List.reverse_injective (List.append_cancel_right h))
  refine ⟨List.append_cancel_right (List.reverse_injective hfront), Name.anonymous_inj ?_⟩
  rw [Name.anonymous, Name.anonymous, String.toList_injective (List.reverse_injective hdigits)]

/-- A tag up to a separator, a label and a number can be told from a line if all else in it is
known. -/
theorem told_apart {sep : Char} {a b x y back : List Char} {m n : Nat} (ha : sep ∉ a) (hb : sep ∉ b)
    (between front : List Char → List Char)
    (h : a ++ sep :: (between a ++ (x ++ (front a ++ ' ' :: ((toString m).toList ++ back))))
      = b ++ sep :: (between b ++ (y ++ (front b ++ ' ' :: ((toString n).toList ++ back))))) :
    a = b ∧ x = y ∧ m = n := by
  obtain ⟨rfl, hrest⟩ := divided_inj ha hb h
  exact ⟨rfl, numbered_inj (List.append_cancel_left hrest)⟩

/-- There is no line feed in what is escaped. -/
theorem lineFeed_notMem_escape (c : Char) : '\n' ∉ escape c := by
  unfold escape
  split_ifs with _ _ hfeed
  · decide
  · decide
  · decide
  · decide
  · simpa using Ne.symm hfeed

/-- The characters of names are not escaped. -/
theorem flatMap_escape_of_isRest {text : List Char} (h : ∀ c ∈ text, Name.isRest c = true) :
    text.flatMap escape = text := by
  have hplain : ∀ c ∈ text, escape c = [c] := fun c hc => by
    unfold escape
    split_ifs with hquote hbackslash hline htab
    · exact absurd (h c hc) (by rw [hquote]; decide)
    · exact absurd (h c hc) (by rw [hbackslash]; decide)
    · exact absurd (h c hc) (by rw [hline]; decide)
    · exact absurd (h c hc) (by rw [htab]; decide)
    · rfl
  rw [List.flatMap_congr hplain, List.flatMap_singleton']

/-! ### Lines -/

/-- What is on the first line of a text is read first. -/
theorem linesAfter_append_of_notMem {before front : List Char} (h : '\n' ∉ front)
    (back : List Char) :
    linesAfter before (front ++ back) = linesAfter (front.reverse ++ before) back := by
  induction front generalizing before with
  | nil => rfl
  | cons c front ih =>
      rw [List.mem_cons, not_or] at h
      rw [List.cons_append, linesAfter, if_neg (Ne.symm h.1), ih h.2, List.reverse_cons,
        List.append_assoc, List.singleton_append]

/-- A line that is ended is a line of its own. -/
theorem linesAfter_line {before line rest : List Char} (h : '\n' ∉ line) :
    linesAfter before (line ++ '\n' :: rest)
      = endLine (line.reverse ++ before) :: linesAfter [] rest := by
  rw [linesAfter_append_of_notMem h, linesAfter, if_pos rfl]

/-- A line that does not end in a carriage return is kept as it is. -/
theorem endLine_reverse {line : List Char} (h : line.getLast? ≠ some '\r') :
    endLine line.reverse = line := by
  unfold endLine
  split
  · next before hline =>
      have : line = before.reverse ++ ['\r'] := by
        rw [← List.reverse_reverse line, hline, List.reverse_cons]
      simp [this] at h
  · exact List.reverse_reverse line

/-- There are no line feeds in lines. -/
theorem notMem_of_mem_linesAfter {before text line : List Char} (hbefore : '\n' ∉ before)
    (hline : line ∈ linesAfter before text) : '\n' ∉ line := by
  have hend {before : List Char} (h : '\n' ∉ before) : '\n' ∉ endLine before := by
    unfold endLine
    split
    · exact fun hmem => h (List.mem_cons_of_mem _ (List.mem_reverse.mp hmem))
    · exact fun hmem => h (List.mem_reverse.mp hmem)
  induction text generalizing before with
  | nil =>
      unfold linesAfter at hline
      split at hline
      · cases hline
      · obtain rfl := List.mem_singleton.mp hline
        exact fun hmem => hbefore (List.mem_reverse.mp hmem)
  | cons c rest ih =>
      unfold linesAfter at hline
      split at hline
      case isTrue =>
        rcases List.mem_cons.mp hline with rfl | hline
        · exact hend hbefore
        · exact ih List.not_mem_nil hline
      case isFalse hc =>
        exact ih (List.not_mem_cons_of_ne_of_not_mem (Ne.symm hc) hbefore) hline

/-- The characters of lines that are ended. -/
theorem toList_endLines {ls : List String} (hne : ls ≠ []) :
    (endLines ls).toList = ls.flatMap fun l => l.toList ++ ['\n'] := by
  have hend : "\n".toList = ['\n'] := rfl
  induction ls with
  | nil => exact absurd rfl hne
  | cons l rest ih =>
      cases rest with
      | nil => simp [endLines, hend]
      | cons l' rest =>
          have := ih (List.cons_ne_nil _ _)
          rw [endLines, String.toList_append, hend] at this ⊢
          rw [String.intercalate_cons_cons, String.toList_append, String.toList_append, hend,
            List.append_assoc, this]
          simp

/-- **Lines that are ended** are read as they are exactly if there is no line feed in them. -/
theorem lines_endLines {ls : List String} (hne : ls ≠ [])
    (hreturn : ∀ l ∈ ls, l.toList.getLast? ≠ some '\r') :
    lines (endLines ls) = ls ↔ ∀ l ∈ ls, '\n' ∉ l.toList := by
  rw [lines, toList_endLines hne]
  constructor
  · intro h l hl
    rw [← h] at hl
    obtain ⟨line, hline, rfl⟩ := List.mem_map.mp hl
    rw [String.toList_ofList]
    exact notMem_of_mem_linesAfter List.not_mem_nil hline
  · intro h
    clear hne
    induction ls with
    | nil => rfl
    | cons l rest ih =>
        rw [List.forall_mem_cons] at h hreturn
        rw [List.flatMap_cons, List.append_assoc, List.singleton_append, linesAfter_line h.1,
          List.append_nil, endLine_reverse hreturn.1, List.map_cons, String.ofList_toList,
          ih hreturn.2 h.2]

end Text

end Stimulus
