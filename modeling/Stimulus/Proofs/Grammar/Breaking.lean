import Stimulus.Proofs.Grammar.Lexeme
import Stimulus.Proofs.History
import Stimulus.Proofs.Rounding.Wrapping

/-!
# Breaks between tokens

A long line is broken behind commas, where a line end and blanks make no difference to the tokens.
The scanner that looks for the commas must not take one that is in a string literal. Where literals
begin and end it sees from the quotes alone, except that it passes over a quote behind a backslash.

A literal whose text ends in a backslash is written with two backslashes in front of its last quote.
For the scanner such a literal goes on. In all other lines the scanner and the reader of tokens
agree on what is a literal, and a break is never inside one.

## Main definitions

* `Token.EndsPlainly`: a token after which the two agree

## Main results

* `Text.lex_softWrap`: if they agree on all tokens of a line, the wrapped line has the same tokens.
* `Module.emit_tokens`: the lines of the text that is emitted.
-/

namespace Stimulus

open Grammar

/-- A token that is no string literal, or one whose last quote is not behind a backslash. -/
def Grammar.Token.EndsPlainly : Token → Prop
  | .literal content => content.toList.getLast? ≠ some '\\'
  | _ => True

instance (t : Token) : Decidable t.EndsPlainly :=
  match t with
  | .literal content => inferInstanceAs (Decidable (content.toList.getLast? ≠ some '\\'))
  | .keyword _ | .word _ | .number _ | .operator _ | .mark _ => .isTrue trivial

namespace Text.Wrap

variable {m : Margin} {s : State}

/-- The characters that make a difference to the scanner. -/
def isWatched (c : Char) : Bool :=
  c == ',' || c == '"' || c == '\\'

/-- A character that makes none is neither a comma nor a quote nor a backslash. -/
theorem isWatched_eq_false {c : Char} :
    isWatched c = false ↔ c ≠ ',' ∧ c ≠ '"' ∧ c ≠ '\\' := by
  simp [isWatched, and_assoc]

/-- A scanner that takes what comes next for no part of a string literal, and the next quote for the
beginning of one. -/
structure State.Outside (s : State) : Prop where
  quoted_eq : s.quoted = false
  last_ne : s.last ≠ some '\\'

/-- The scanner copies a character if no break is due. -/
theorem go_cons (hdue : s.due = false) (c : Char) (rest : List Char) :
    go m s (c :: rest) = c :: go m (s.next m c) rest := by
  rw [go, if_neg (by simp [hdue])]

/-- The scanner stays outside of literals where there are neither quotes nor backslashes. -/
theorem State.Outside.next (h : s.Outside) {c : Char} (hquote : c ≠ '"') (hbackslash : c ≠ '\\') :
    (s.next m c).Outside := by
  refine ⟨?_, ?_⟩
  · simp [State.next, hquote, h.quoted_eq]
  · simpa [State.next] using hbackslash

/-- A break is due behind commas only. -/
theorem State.due_next {c : Char} (hc : c ≠ ',') : (s.next m c).due = false := by
  rw [Bool.eq_false_iff]
  exact fun h => hc (eq_comma_of_due h)

/-- The scanner copies what makes no difference to it. -/
theorem State.Outside.go_append (h : s.Outside) (hdue : s.due = false) {l : List Char}
    (hl : ∀ c ∈ l, isWatched c = false) :
    ∃ s', s'.Outside ∧ s'.due = false ∧ ∀ rest, go m s (l ++ rest) = l ++ go m s' rest := by
  induction l generalizing s with
  | nil => exact ⟨s, h, hdue, fun rest => rfl⟩
  | cons c l ih =>
      rw [List.forall_mem_cons] at hl
      obtain ⟨hc, hl⟩ := hl
      obtain ⟨hcomma, hquote, hbackslash⟩ := isWatched_eq_false.mp hc
      obtain ⟨s', h', hdue', hgo⟩ :=
        ih (h.next (m := m) hquote hbackslash) (State.due_next hcomma) hl
      refine ⟨s', h', hdue', fun rest => ?_⟩
      rw [List.cons_append, go_cons hdue, hgo, List.cons_append]

/-- Inside of a literal the scanner stays there, at a quote as well if a backslash stands in front
of it. -/
theorem State.next_quoted (hquoted : s.quoted = true) {c : Char}
    (hc : c ≠ '"' ∨ s.last = some '\\') :
    (s.next m c).quoted = true ∧ (s.next m c).due = false ∧ (s.next m c).last = some c := by
  have hstays : (s.next m c).quoted = true := by
    rcases hc with hc | hlast
    · simp [State.next, hc, hquoted]
    · simp [State.next, hlast, hquoted]
  refine ⟨hstays, ?_, rfl⟩
  simp only [State.next] at hstays
  simp only [State.next, hstays, Bool.not_true, Bool.and_false, Bool.false_and]

/-- **The scanner leaves a string literal** at its last quote, if there is no backslash in front of
that quote. -/
theorem go_literal {content : List Char} (h : IsContent content) (hquoted : s.quoted = true)
    (hdue : s.due = false) (hlast : (s.last.toList ++ content).getLast? ≠ some '\\') :
    ∃ s', s'.Outside ∧ s'.due = false ∧
      ∀ rest, go m s (content ++ '"' :: rest) = content ++ '"' :: go m s' rest := by
  induction h generalizing s with
  | nil =>
      refine ⟨s.next m '"', ⟨?_, ?_⟩, State.due_next (by decide), fun rest => go_cons hdue _ _⟩
      · have hne : s.last ≠ some '\\' := by
          intro heq
          simp [heq] at hlast
        simp [State.next, hquoted, hne]
      · simp [State.next]
  | @escaped c l _ ih =>
      -- The scanner looks one character back only, which is enough behind a backslash.
      have hslash := State.next_quoted (m := m) hquoted (c := '\\') (.inl (by decide))
      have hnext := State.next_quoted (m := m) hslash.1 (c := c) (.inr hslash.2.2)
      obtain ⟨s', h', hdue', hgo⟩ := ih hnext.1 hnext.2.1 (by
        rw [hnext.2.2]
        simpa [List.getLast?_append] using hlast)
      refine ⟨s', h', hdue', fun rest => ?_⟩
      rw [List.cons_append, List.cons_append, go_cons hdue, go_cons hslash.2.1, hgo]
      rfl
  | @plain c l hquote hbackslash _ ih =>
      have hnext := State.next_quoted (m := m) hquoted (c := c) (.inl hquote)
      obtain ⟨s', h', hdue', hgo⟩ := ih hnext.1 hnext.2.1 (by
        rw [hnext.2.2]
        simpa [List.getLast?_append] using hlast)
      refine ⟨s', h', hdue', fun rest => ?_⟩
      rw [List.cons_append, go_cons hdue, hgo]
      rfl

/-! ### Tokens of wrapped lines -/

variable (m) in
/-- A text that has the same tokens after it is wrapped, wherever the scanner stands, provided that
it is outside of literals. -/
def KeepsTokens (l : List Char) : Prop :=
  ∀ ts, lex l = some ts → (∀ t ∈ ts, t.EndsPlainly) → ∀ s : State, s.Outside →
    lex (go m s l) = some ts

/-- A string literal in front of a text that keeps its tokens. -/
theorem lex_go_literal {content left : List Char} {us : List Token} (h : s.Outside)
    (hdue : s.due = false) (hcontent : IsContent content)
    (hplain : (Token.literal (String.ofList content)).EndsPlainly)
    (hleft : ∀ s : State, s.Outside → lex (go m s left) = some us) :
    lex (go m s ('"' :: (content ++ '"' :: left)))
      = some (.literal (String.ofList content) :: us) := by
  have hquoted : (s.next m '"').quoted = true := by
    simp [State.next, h.quoted_eq, h.last_ne]
  have hlast : ((s.next m '"').last.toList ++ content).getLast? ≠ some '\\' := by
    simp only [Token.EndsPlainly, String.toList_ofList] at hplain
    rw [List.getLast?_append]
    cases hend : content.getLast? with
    | none => simp [State.next]
    | some d => rwa [hend] at hplain
  obtain ⟨s', h', -, hgo⟩ := go_literal hcontent hquoted (State.due_next (by decide)) hlast
  have hread := sealed_literal hcontent (go m s' left)
  rw [hleft s' h'] at hread
  rw [go_cons hdue, hgo]
  simpa using hread

/-- A token that is neither a string literal nor a comma, in front of a text that keeps its tokens.
What the token is depends on nothing behind the next comma, quote or backslash. -/
theorem lex_go_token {c : Char} {rest left : List Char} {t : Token} {us : List Token}
    (h : s.Outside) (hdue : s.due = false) (hspace : isSpace c = false) (hc : isWatched c = false)
    (htoken : token? (c :: rest) = some (t, left))
    (hleft : ∀ s : State, s.Outside → lex (go m s left) = some us) :
    lex (go m s (c :: rest)) = some (t :: us) := by
  obtain ⟨-, hquote, -⟩ := isWatched_eq_false.mp hc
  obtain ⟨near, far, rfl, hnear, hfar⟩ : ∃ near far, rest = near ++ far ∧
      (∀ d ∈ near, isWatched d = false) ∧ ∀ d ∈ far.head?, isWatched d = true := by
    refine ⟨_, _, (List.takeWhile_append_dropWhile (p := (!isWatched ·))).symm, ?_, ?_⟩
    · exact fun d hd => by simpa using List.mem_takeWhile_imp hd
    · intro d hd
      have hhead := List.head?_dropWhile_not (!isWatched ·) rest
      rw [Option.mem_def.mp hd] at hhead
      simpa using hhead
  have hwatched {d : Char} (hd : isWatched d = true) : d ∈ delimiters := by
    simp only [isWatched, Bool.or_eq_true, beq_iff_eq] at hd
    rcases hd with (rfl | rfl) | rfl <;> decide
  -- Up to there the scanner copies what it reads, and no break is due before it has passed.
  have hdelimited : Delimited far := fun d hd => hwatched (hfar d hd)
  rw [← List.cons_append, hdelimited.token?_append hquote] at htoken
  obtain ⟨⟨t', back⟩, hnearToken, heq⟩ := Option.map_eq_some_iff.mp htoken
  cases heq
  obtain ⟨front, rfl⟩ := token?_suffix hquote hnearToken
  rw [List.forall_mem_append] at hnear
  obtain ⟨s₁, h₁, hdue₁, hgo₁⟩ := h.go_append (m := m) hdue (l := c :: front)
    (List.forall_mem_cons.mpr ⟨hc, hnear.1⟩)
  obtain ⟨s₂, h₂, hdue₂, hgo₂⟩ := h₁.go_append (m := m) hdue₁ hnear.2
  have hbehind : Delimited (go m s₂ far) := by
    cases far with
    | nil => exact hdelimited
    | cons d far =>
        rw [go_cons hdue₂]
        exact hdelimited
  have hread := hbehind.token?_append hquote (front ++ back)
  rw [hnearToken] at hread
  have hsplit : go m s (c :: (front ++ back ++ far)) = c :: (front ++ back) ++ go m s₂ far := by
    rw [List.append_assoc, ← List.cons_append, hgo₁, hgo₂]
    simp
  have hleft := hleft s₁ h₁
  rw [hgo₂] at hleft
  have hshorter : (back ++ go m s₂ far).length < (c :: (front ++ back) ++ go m s₂ far).length := by
    simp only [List.length_append, List.length_cons]
    omega
  rw [hsplit, lex_token rfl hspace hread hshorter, hleft]
  rfl

/-- A text keeps its tokens if no break is due in front of it, and if everything shorter keeps
them. -/
theorem lex_go_copy {l : List Char} {ts : List Token}
    (ih : ∀ l', l'.length < l.length → KeepsTokens m l') (hlex : lex l = some ts)
    (hplain : ∀ t ∈ ts, t.EndsPlainly) (h : s.Outside) (hdue : s.due = false) :
    lex (go m s l) = some ts := by
  cases l with
  | nil => exact hlex
  | cons c rest =>
      cases hspace : isSpace c with
      | true =>
          have hc : c ≠ '"' ∧ c ≠ '\\' := by
            refine ⟨?_, ?_⟩ <;> rintro rfl <;> exact absurd hspace (by decide)
          rw [lex_space hspace] at hlex
          rw [go_cons hdue, lex_space hspace]
          exact ih rest (by simp) ts hlex hplain _ (h.next hc.1 hc.2)
      | false =>
          -- A token: a comma may make a break due, a literal is left at its end, and no token
          -- starts with a backslash.
          obtain ⟨t, left, us, htoken, hshorter, hus, rfl⟩ := lex_cons hspace hlex
          rw [List.forall_mem_cons] at hplain
          have hleft (s : State) (h : s.Outside) : lex (go m s left) = some us :=
            ih left hshorter us hus hplain.2 s h
          cases hc : isWatched c with
          | false => exact lex_go_token h hdue hspace hc htoken hleft
          | true =>
              simp only [isWatched, Bool.or_eq_true, beq_iff_eq] at hc
              rcases hc with (rfl | rfl) | rfl
              · cases htoken
                have hcomma : Sealed "," [.mark .comma] := sealed_mark (by decide) rfl
                have hrest : lex (go m (s.next m ',') rest) = some us :=
                  hleft _ (h.next (by decide) (by decide))
                have hread := hcomma (go m (s.next m ',') rest)
                rw [hrest] at hread
                rw [go_cons hdue]
                exact hread
              · obtain ⟨⟨content, back⟩, hliteral, heq⟩ := Option.map_eq_some_iff.mp htoken
                cases heq
                obtain ⟨hcontent, rfl⟩ := isContent_of_literal? hliteral
                exact lex_go_literal h hdue hcontent hplain.1 hleft
              · cases htoken

/-- **Wrapping keeps the tokens** of a text, one token after the other. A break in front of the next
token is a blank more. -/
theorem keepsTokens (hm : ∀ c ∈ m.continuation, isSpace c = true) (l : List Char) :
    KeepsTokens m l := by
  -- A token is as long as it can be, so that the induction is on the length of the text.
  induction hlength : l.length using Nat.strong_induction_on generalizing l with
  | _ n ih =>
      subst hlength
      have ih (l' : List Char) (hl' : l'.length < l.length) : KeepsTokens m l' := ih _ hl' l' rfl
      intro ts hlex hplain s h
      cases hdue : s.due with
      | false => exact lex_go_copy ih hlex hplain h hdue
      | true =>
          cases l with
          | nil => exact hlex
          | cons c rest =>
              rw [go, if_pos hdue]
              split
              case isTrue hblank =>
                  rw [beq_iff_eq.mp hblank, lex_space rfl] at hlex
                  exact ih rest (by simp) ts hlex hplain s h
              case isFalse =>
                  -- The break and the margin behind it are blanks in front of the copy.
                  have hcopy := lex_go_copy (s := s.broken m) ih hlex hplain ⟨h.1, h.2⟩ rfl
                  have hblanks : Sealed (String.ofList ('\n' :: m.continuation)) [] := by
                    refine sealed_spaces fun d hd => ?_
                    rw [String.toList_ofList, List.mem_cons] at hd
                    rcases hd with rfl | hd
                    · rfl
                    · exact hm d hd
                  have hread := hblanks (go m (s.broken m) (c :: rest))
                  rw [hcopy, go_cons rfl, String.toList_ofList] at hread
                  exact hread

end Text.Wrap

/-- No token starts with a blank. -/
theorem Grammar.token?_blank {c : Char} (hc : Text.isBlank c = true) (rest : List Char) :
    token? (c :: rest) = none := by
  have hrest := Text.isRest_of_isBlank hc
  simp only [Name.isRest, Bool.or_eq_false_iff] at hrest
  have hstart : isWordStart c = false := by
    simp only [isWordStart, hrest, Bool.false_or]
  have hquote : c ≠ '"' := by
    rintro rfl
    exact absurd hc (by decide)
  have hsymbol : symbols.find? (·.1.isPrefixOf (c :: rest)) = none := by
    have hhead : ∀ x ∈ symbols, x.1 ≠ [] ∧ ∀ d ∈ x.1.head?, Text.isBlank d = false := by decide
    rw [List.find?_eq_none]
    intro x hx hstarts
    obtain ⟨hne, hfirst⟩ := hhead x hx
    obtain ⟨d, more, hchars⟩ := List.exists_cons_of_ne_nil hne
    rw [hchars, List.isPrefixOf_iff_prefix, List.cons_prefix_cons] at hstarts
    have hd := hfirst d (by rw [hchars]; rfl)
    rw [hstarts.1, hc] at hd
    cases hd
  rw [token?, if_neg (by simp [hstart]), if_neg (by simp [hrest]), if_neg hquote, symbol?, hsymbol]
  rfl

/-- Blanks in front of a line that has tokens are of the kinds that separate tokens. -/
theorem Grammar.isSpace_of_lex {l : List Char} {ts : List Token} (h : lex l = some ts) :
    ∀ c ∈ l.takeWhile Text.isBlank, isSpace c = true := by
  induction l with
  | nil => simp
  | cons c rest ih =>
      cases hblank : Text.isBlank c with
      | false => simp [hblank]
      | true =>
          cases hspace : isSpace c with
          | true =>
              rw [lex_space hspace] at h
              rw [List.takeWhile_cons_of_pos hblank, List.forall_mem_cons]
              exact ⟨hspace, ih h⟩
          | false =>
              obtain ⟨t, left, us, htoken, -⟩ := lex_cons hspace h
              rw [token?_blank hblank] at htoken
              cases htoken

/-- **A wrapped line has the tokens of the line** if no string literal in it ends in a backslash. -/
theorem Text.lex_softWrap {line : String} {ts : List Token} (column : Nat)
    (h : lex line.toList = some ts) (hplain : ∀ t ∈ ts, t.EndsPlainly) :
    lex (softWrap column line).toList = some ts := by
  unfold softWrap
  split
  · exact h
  · rw [String.toList_ofList]
    refine Wrap.keepsTokens (fun c hc => ?_) line.toList ts h hplain .start ⟨rfl, by decide⟩
    rcases List.mem_append.mp hc with hc | hc
    · exact isSpace_of_lex h c hc
    · rw [(List.mem_replicate.mp hc).2]
      rfl

/-- The blanks behind the comma give way to the break. -/
example : Text.softWrap 6 "f(g(1),  h)" = "f(g(1),\n    h)" := by decide

/-- **A literal that ends in a backslash** misleads the scanner: what follows it is a literal for
the reader of tokens, and the line is broken inside. -/
theorem Text.softWrap_breaks_literal :
    let line := "$fopen(" ++ quote "C:\\log\\" ++ "," ++ quote "high (1),  low" ++ ")"
    softWrap 20 line = "$fopen(\"C:\\\\log\\\\\",\"high (1),\n    low\")" ∧
      ∃ ts, lex line.toList = some ts ∧ lex (softWrap 20 line).toList ≠ some ts := by
  intro line
  have hbroken : softWrap 20 line = "$fopen(\"C:\\\\log\\\\\",\"high (1),\n    low\")" := by decide
  have hopen : Sealed "$fopen(" [.word "$fopen", .mark .openParen] :=
    (lexes_word (w := "$fopen") (by decide)).append_sealed
      (sealed_mark (s := "(") (by decide) rfl) (by decide)
  have hcomma : Sealed "," [.mark .comma] := sealed_mark (by decide) rfl
  have hclose : Sealed ")" [.mark .closeParen] := sealed_mark (by decide) rfl
  have hfront := (hopen.append (sealed_quote "C:\\log\\")).append hcomma
  have hline := (hfront.append (sealed_quote "high (1),  low")).append hclose
  have hcontent := (isContent_of_literal? (l := "high (1),\n    low\"".toList) rfl).1
  have hbrokenLine := (hfront.append (sealed_literal hcontent)).append hclose
  refine ⟨hbroken, _, hline.lexes.lex_eq, ?_⟩
  rw [hbroken]
  intro h
  have heq := hbrokenLine.lexes.lex_eq.symm.trans h
  revert heq
  decide

/-- The last character of a written character is a backslash if the character is one. -/
theorem Text.getLast?_escape (c : Char) :
    (escape c).getLast? = some '\\' ↔ c = '\\' := by
  rcases escape_cases c with ⟨h, -⟩ | ⟨d, hd, h⟩
  · simp [h]
  · have hbackslash : ∀ x ∈ escapes, x.2 = '\\' ↔ x.1 = '\\' := by decide
    simpa [h] using hbackslash _ hd

/-- The literal of a text ends plainly if and only if the text does not end in a backslash. -/
theorem Grammar.endsPlainly_quoted {text : String} :
    (Token.literal (quoted text)).EndsPlainly ↔ text.toList.getLast? ≠ some '\\' := by
  rw [Token.EndsPlainly, quoted, String.toList_ofList, not_iff_not]
  rcases List.eq_nil_or_concat text.toList with hnil | ⟨front, c, hlast⟩
  · simp [hnil]
  · have hne : Text.escape c ≠ [] := by
      rcases Text.escape_cases c with ⟨h, -⟩ | ⟨d, -, h⟩ <;> simp [h]
    rw [hlast, List.concat_eq_append, List.flatMap_append, List.flatMap_singleton,
      List.getLast?_append_of_ne_nil _ hne, Text.getLast?_escape]
    simp

/-- **The lines that are emitted.** Each is a line of the parts, wrapped. A line that is not longer
than the column stays as it is. A line with tokens keeps them if no string literal in it ends in a
backslash. -/
theorem Module.emit_tokens {m : Module} (h : m.fault = none) :
    ∃ ls, m.emit? = .ok (String.join (ls.map (· ++ "\n"))) ∧
      List.Forall₂ (fun line out => (line.length ≤ m.options.wrapColumn → out = line) ∧
        ∀ ts, lex line.toList = some ts → (∀ t ∈ ts, t.EndsPlainly) → lex out.toList = some ts)
        (Text.lines m.parts) ls := by
  refine ⟨(Text.lines m.parts).map (Text.softWrap m.options.wrapColumn), ?_, ?_⟩
  · rw [emit?_eq h, Text.wrapLines, List.map_map]
    rfl
  · rw [List.forall₂_map_right_iff, List.forall₂_same]
    intro line _
    exact ⟨fun hshort => if_pos hshort, fun ts hlex hplain => Text.lex_softWrap _ hlex hplain⟩

/-- The lines of a module that calls a function of two arguments. -/
theorem Module.emit_tokens_call :
    ∃ m₀, Module.new? { Options.reproducible "stamp" with wrapColumn := 10 } "" "dut" = .ok m₀ ∧
      let m := m₀.after [.addBody (.raw "$display(max(a, b),  c)")]
      ∃ ls, m.emit? = .ok (String.join (ls.map (· ++ "\n"))) ∧
        List.Forall₂ (fun line out => (line.length ≤ m.options.wrapColumn → out = line) ∧
          ∀ ts, lex line.toList = some ts → (∀ t ∈ ts, t.EndsPlainly) → lex out.toList = some ts)
          (Text.lines m.parts) ls := by
  obtain ⟨m₀, h₀⟩ : ∃ m₀, Module.new? { Options.reproducible "stamp" with wrapColumn := 10 } ""
      "dut" = .ok m₀ := ⟨_, rfl⟩
  refine ⟨m₀, h₀, emit_tokens ?_⟩
  rw [eq_of_new? h₀, ← Option.isNone_iff_eq_none]
  decide +kernel

end Stimulus
