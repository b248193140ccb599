import Stimulus.Proofs.Grammar.Breaking
import Stimulus.Proofs.Grammar.Locality
import Stimulus.Proofs.Grammar.Reading

/-!
# What the scan for operators finds

The scan for the operators at the top level of a text goes through the characters and knows nothing
of tokens. Still it finds every operator and every question mark among the outermost tokens, if only
it comes out of each string literal at the quote that ends it. A backslash in front of that quote
misleads it, even if the backslash is itself protected.

The scan may find more, such as the sign of an exponent. Then a text is put in parentheses without
need, and is read as before.

## Main definitions

* `Parses`: a text that has a tree, and in which the scan comes out of all string literals
* `Allows`: the operator characters that may stand beside an operator of some strength

## Main results

* `scan_content`: the scan comes out of a string literal.
* `mem_operators`: the operators of the outermost tokens are found.
* `binds_wrap`: a text that is put in parentheses where needed holds together.
-/

namespace Stimulus.Grammar

variable {g : Strengths} {level : Nat} {s : String} {ts : List Token} {x : Tree}

/-! ### Tokens and their characters -/

/-- The characters of an operator or a mark. -/
def Token.chars : Token → List Char
  | .operator o => o.chars
  | .mark m => m.chars
  | _ => []

/-- An operator or a mark is made of the first characters of the text. -/
theorem token?_chars {l left : List Char} {t : Token} (h : token? l = some (t, left))
    (ht : t.chars ≠ []) : l = t.chars ++ left := by
  cases l with
  | nil => cases h
  | cons c rest =>
      rw [token?] at h
      split at h
      · cases h
        refine absurd ?_ ht
        unfold Token.ofWord
        split <;> rfl
      · split at h
        · cases h
          exact absurd rfl ht
        · split at h
          · obtain ⟨_, -, heq⟩ := Option.map_eq_some_iff.mp h
            cases heq
            exact absurd rfl ht
          · obtain ⟨⟨chars, u⟩, hfind, heq⟩ := Option.map_eq_some_iff.mp h
            cases heq
            have hchars : ∀ x ∈ symbols, x.2.chars = x.1 := by decide
            have hstarts := List.find?_some hfind
            rw [List.isPrefixOf_iff_prefix] at hstarts
            rw [hchars _ (List.mem_of_find?_eq_some hfind)]
            exact (List.prefix_iff_eq_append.mp hstarts).symm

/-- A token that starts with a plain character is made of plain characters. -/
theorem isPlain_of_token? {c : Char} (hc : isPlain c = true) {rest left : List Char} {t : Token}
    (h : token? (c :: rest) = some (t, left)) :
    ∃ front, rest = front ++ left ∧ ∀ d ∈ front, isPlain d = true := by
  -- Up to the next character that is not plain, which is a delimiter.
  obtain ⟨near, far, rfl, hnear, hfar⟩ : ∃ near far, rest = near ++ far ∧
      (∀ d ∈ near, isPlain d = true) ∧ ∀ d ∈ far.head?, isPlain d = false := by
    refine ⟨_, _, (List.takeWhile_append_dropWhile (p := isPlain)).symm,
      fun d hd => List.mem_takeWhile_imp hd, fun d hd => ?_⟩
    have hhead := List.head?_dropWhile_not isPlain rest
    rw [Option.mem_def.mp hd] at hhead
    simpa using hhead
  have hdelimited : Delimited far := by
    intro d hd
    have hsort := hfar d hd
    simp only [isPlain, Bool.not_eq_false', List.contains_iff_mem] at hsort
    have hall : ∀ d ∈ ['(', ')', '[', ']', '"', '\\'], d ∈ delimiters := by decide
    exact hall d hsort
  have hquote : c ≠ '"' := (isPlain_iff.mp hc).2.2.2.2.1
  rw [← List.cons_append, hdelimited.token?_append hquote] at h
  obtain ⟨⟨t', back⟩, hnearToken, heq⟩ := Option.map_eq_some_iff.mp h
  cases heq
  obtain ⟨front, rfl⟩ := token?_suffix hquote hnearToken
  exact ⟨front, List.append_assoc _ _ _, fun d hd => hnear d (List.mem_append_left _ hd)⟩

/-! ### The scan -/

/-- The scan lists the operators among plain characters. -/
theorem mem_scan_plain {front : List Char} (h : ∀ d ∈ front, isPlain d = true) {c : Char}
    (hc : c ∈ front) (hoperator : c ∈ Grouping.operatorChars) (rest : List Char) :
    c ∈ Grouping.scan 0 false false (front ++ rest) := by
  induction front with
  | nil => cases hc
  | cons d front ih =>
      rw [List.forall_mem_cons] at h
      rcases List.mem_cons.mp hc with rfl | hc
      · obtain ⟨hopen, hclose, hopenBracket, hcloseBracket, hquote, -⟩ := isPlain_iff.mp h.1
        simp [Grouping.scan, hopen, hclose, hopenBracket, hcloseBracket, hquote, hoperator]
      · exact (Nested.scan_plain h.1 0 _).subset (ih h.2 hc)

/-- **The scan comes out of a string literal** at the quote that ends it, if there is no backslash
in front of that quote. -/
theorem scan_content {content : List Char} (h : IsContent content) (depth : Nat) {escaped : Bool}
    (hescaped : content = [] → escaped = false) (hlast : content.getLast? ≠ some '\\')
    (rest : List Char) :
    Grouping.scan depth true escaped (content ++ '"' :: rest)
      = Grouping.scan depth false false rest := by
  induction h generalizing escaped with
  | nil =>
      rw [hescaped rfl]
      rfl
  | @escaped c l _ ih =>
      have hslash : Grouping.scan depth true escaped ('\\' :: c :: (l ++ '"' :: rest))
          = Grouping.scan depth true (c == '\\') (l ++ '"' :: rest) := by
        simp [Grouping.scan]
      refine hslash.trans (ih ?_ fun hl => hlast ?_)
      · rintro rfl
        simpa using hlast
      · simp [List.getLast?_cons, hl]
  | @plain c l hquote hbackslash _ ih =>
      have hescape : (c == '\\') = false := beq_eq_false_iff_ne.mpr hbackslash
      have hcopy : Grouping.scan depth true escaped (c :: (l ++ '"' :: rest))
          = Grouping.scan depth true false (l ++ '"' :: rest) := by
        simp [Grouping.scan, hquote, hescape]
      refine hcopy.trans (ih (fun _ => rfl) fun hl => hlast ?_)
      simp [List.getLast?_cons, hl]

/-- What starts with a plain character is neither a parenthesis nor a bracket. -/
theorem not_bracket_of_token? {c : Char} (hc : isPlain c = true) {rest left : List Char} {t : Token}
    (h : token? (c :: rest) = some (t, left)) : t.isOpening = false ∧ t.isClosing = false := by
  have hne {m : Mark} (hm : m.chars.any isPlain = false) (hm' : m.chars ≠ []) : t ≠ .mark m := by
    rintro rfl
    have hchars := token?_chars h hm'
    obtain ⟨d, more, hd⟩ := List.exists_cons_of_ne_nil hm'
    rw [Token.chars, hd, List.cons_append] at hchars
    rw [hd, List.any_cons, ← (List.cons.inj hchars).1, hc] at hm
    cases hm
  simp [Token.isOpening, Token.isClosing, hne (m := .openParen) rfl nofun,
    hne (m := .openBracket) rfl nofun, hne (m := .closeParen) rfl nofun,
    hne (m := .closeBracket) rfl nofun]

/-- The scan goes through a token of plain characters, and finds it if it is an operator. -/
theorem mem_scan_cons {d : Char} (hd : isPlain d = true) {rest left : List Char} {u : Token}
    (htoken : token? (d :: rest) = some (u, left)) {depth : Nat} {us : List Token} {t : Token}
    (ht : t ∈ outermost depth (u :: us)) {c : Char} (hc : c ∈ t.chars)
    (hoperator : c ∈ Grouping.operatorChars)
    (hleft : t ∈ outermost depth us → c ∈ Grouping.scan depth false false left) :
    c ∈ Grouping.scan depth false false (d :: rest) := by
  obtain ⟨hopening, hclosing⟩ := not_bracket_of_token? hd htoken
  obtain ⟨front, rfl, hfront⟩ := isPlain_of_token? hd htoken
  have hplain : ∀ e ∈ d :: front, isPlain e = true := List.forall_mem_cons.mpr ⟨hd, hfront⟩
  rcases mem_outermost_cons hopening hclosing ht with ⟨rfl, rfl⟩ | ht
  · have hchars := token?_chars htoken (List.ne_nil_of_mem hc)
    rw [← List.cons_append, List.append_cancel_right_eq] at hchars
    rw [← hchars] at hc
    exact mem_scan_plain hplain hc hoperator left
  · exact ((Nested.of_plain hplain).operators_suffix depth left).subset (hleft ht)

/-- The operators of the outermost tokens are found by the scan from any depth. -/
theorem mem_scan {l : List Char} (hlex : lex l = some ts) (hplain : ∀ t ∈ ts, t.EndsPlainly)
    (depth : Nat) {t : Token} (ht : t ∈ outermost depth ts) {c : Char} (hc : c ∈ t.chars)
    (hoperator : c ∈ Grouping.operatorChars) : c ∈ Grouping.scan depth false false l := by
  -- A token is as long as it can be, so that the induction is on the length of the text.
  induction hlength : l.length using Nat.strong_induction_on generalizing l ts depth with
  | _ n ih =>
      subst hlength
      cases l with
      | nil =>
          rw [lex] at hlex
          cases hlex
          cases ht
      | cons d rest =>
          cases hspace : isSpace d with
          | true =>
              have hd : isPlain d = true := isPlain_of (p := isSpace) (by decide) hspace
              rw [lex_space hspace] at hlex
              have hrest := ih rest.length (Nat.lt_succ_self _) hlex hplain depth ht rfl
              exact (Nested.scan_plain hd depth rest).subset hrest
          | false =>
              obtain ⟨u, left, us, htoken, hshorter, hus, rfl⟩ := lex_cons hspace hlex
              rw [List.forall_mem_cons] at hplain
              have hleft (depth : Nat) (ht : t ∈ outermost depth us) :
                  c ∈ Grouping.scan depth false false left :=
                ih left.length hshorter hus hplain.2 depth ht rfl
              by_cases hd : isPlain d = true
              · exact mem_scan_cons hd htoken ht hc hoperator (hleft depth)
              · -- A bracket, a string literal, or a backslash, with which no token starts.
                simp only [isPlain, Bool.not_eq_true', Bool.not_eq_false, List.contains_iff_mem,
                  List.mem_cons, List.not_mem_nil, or_false] at hd
                rcases hd with rfl | rfl | rfl | rfl | rfl | rfl
                · cases htoken
                  exact hleft (depth + 1) ht
                · cases htoken
                  exact hleft (depth - 1) ht
                · cases htoken
                  exact hleft (depth + 1) ht
                · cases htoken
                  exact hleft (depth - 1) ht
                · obtain ⟨⟨content, back⟩, hliteral, heq⟩ := Option.map_eq_some_iff.mp htoken
                  cases heq
                  obtain ⟨hcontent, rfl⟩ := isContent_of_literal? hliteral
                  have hlast : content.getLast? ≠ some '\\' := by
                    simpa [Token.EndsPlainly] using hplain.1
                  have hscan := scan_content hcontent depth (fun _ => rfl) hlast left
                  rcases mem_outermost_cons rfl rfl ht with ⟨-, rfl⟩ | ht
                  · cases hc
                  · exact hscan.symm ▸ hleft depth ht
                · cases htoken

/-! ### Texts of operands -/

/-- A text that is an operand, an operation or an expression, with its tree, and whose string
literals end plainly. -/
def Parses (IsPart : List Token → Tree → Prop) (text : String) (x : Tree) : Prop :=
  ∃ ts, Lexes text ts ∧ (∀ t ∈ ts, t.EndsPlainly) ∧ IsPart ts x

/-- A text that is an expression is read as its tree. -/
theorem Parses.read (h : Parses (IsExpressionUnder g) s x) : readExpression g s = some x := by
  obtain ⟨ts, hlexes, -, hx⟩ := h
  exact readExpression_eq hlexes hx

/-- Tokens of one sort are of another. -/
theorem Parses.imp {IsPart IsOther : List Token → Tree → Prop} (h : Parses IsPart s x)
    (hparts : ∀ {ts}, IsPart ts x → IsOther ts x) : Parses IsOther s x := by
  obtain ⟨ts, hlexes, hplain, hx⟩ := h
  exact ⟨ts, hlexes, hplain, hparts hx⟩

/-- Parentheses do not change how literals end. -/
theorem endsPlainly_parenthesised (h : ∀ t ∈ ts, t.EndsPlainly) :
    ∀ t ∈ parenthesised ts, t.EndsPlainly := by
  simpa [parenthesised, Token.EndsPlainly, or_imp, forall_and] using h

/-- A text in parentheses is an operand. -/
theorem parses_operandText (h : Parses (IsExpressionUnder g) s x) :
    Parses (IsOperandUnder g) ("( " ++ s ++ " )") x := by
  obtain ⟨ts, hlexes, hplain, hx⟩ := h
  exact ⟨_, (sealed_operandText hlexes).lexes, endsPlainly_parenthesised hplain, hx.parenthesised⟩

/-- **The operators of the outermost tokens** are found. -/
theorem mem_operators (hlex : Lexes s ts) (hplain : ∀ t ∈ ts, t.EndsPlainly) {t : Token}
    (ht : t ∈ outermost 0 ts) {c : Char} (hc : c ∈ t.chars)
    (hoperator : c ∈ Grouping.operatorChars) : c ∈ Grouping.operators s :=
  mem_scan hlex.lex_eq hplain 0 ht hc hoperator

/-- Operators are made of the characters for which the scan looks. -/
theorem mem_operatorChars {o : Operator} {c : Char} (hc : c ∈ o.chars) :
    c ∈ Grouping.operatorChars := by
  have hall : ∀ c ∈ o.chars, c ∈ Grouping.operatorChars := by cases o <;> decide
  exact hall c hc

/-- Characters that may stand at the top level of an operand: no question mark, and not all
characters of an infix that is weaker than a level. -/
structure Allows (g : Strengths) (level : Nat) (allowed : List Char) : Prop where
  question : '?' ∉ allowed
  infixes {o : Operator} {op : Infix} (hop : o.infix? = some op) (h : ∀ c ∈ o.chars, c ∈ allowed) :
    level ≤ g op

/-- **A text that is put in parentheses where needed** holds together. -/
theorem binds_wrap {allowed : List Char} (h : Parses (IsExpressionUnder g) s x)
    (hallowed : Allows g level allowed) : Parses (Binds g level) (Grouping.wrap allowed s) x := by
  unfold Grouping.wrap
  split
  next hall =>
      obtain ⟨ts, hlexes, hplain, hx⟩ := h
      simp only [List.all_eq_true, List.contains_iff_mem] at hall
      refine ⟨ts, hlexes, hplain,
        binds_of_expression hx (fun hquestion => ?_) fun o op ho hop => ?_⟩
      · exact hallowed.question (hall _ (mem_operators hlexes hplain hquestion
          List.mem_cons_self (by decide)))
      · exact hallowed.infixes hop fun c hc =>
          hall c (mem_operators hlexes hplain ho hc (mem_operatorChars hc))
  next => exact (parses_operandText h).imp fun hx => hx.binds level

end Stimulus.Grammar
