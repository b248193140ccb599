import Stimulus.Proofs.Grammar.Scanning

/-!
# Expressions that can be read

An expression can be read if its trusted texts can be read, if its names are legal, and if no path
or mode of a file ends in a backslash. The texts of paths are arbitrary otherwise: what they are
written with is protected, and the literal ends where the scan expects it to.

The condition of a choice is the one operand that may be written without parentheses. It is then
free of choices, since the scan has found no question mark, and so it is an operation.

## Main definitions

* `HasTree`: a text that is read, and whose string literals end plainly
* `Expr.Readable`

## Main results

* `hasTree_iff`
* `Expr.binds_textIn`: an expression where only some operators may stand at the top level.
* `Expr.Readable.hasTree`: an expression that can be read has a tree.
-/

namespace Stimulus

open Grammar

namespace Grammar

variable {g : Strengths} {s t u : String} {x y z : Tree}

/-! ### Texts without backslashes -/

/-- Without a backslash no literal ends in one. -/
theorem endsPlainly_of_token? {c : Char} {rest left : List Char} {t : Token}
    (h : token? (c :: rest) = some (t, left)) (hbackslash : '\\' ∉ rest) :
    t.EndsPlainly ∧ '\\' ∉ left := by
  by_cases hquote : c = '"'
  · subst hquote
    obtain ⟨⟨content, back⟩, hliteral, heq⟩ := Option.map_eq_some_iff.mp h
    cases heq
    obtain ⟨-, rfl⟩ := isContent_of_literal? hliteral
    rw [List.mem_append, List.mem_cons, not_or, not_or] at hbackslash
    refine ⟨fun hlast => hbackslash.1 ?_, hbackslash.2.2⟩
    rw [String.toList_ofList] at hlast
    exact List.mem_of_getLast? hlast
  · refine ⟨?_, fun hmem => hbackslash ((token?_suffix hquote h).subset hmem)⟩
    rw [token?, if_neg hquote] at h
    split at h
    · cases h
      unfold Token.ofWord
      split <;> trivial
    · split at h
      · cases h
        trivial
      · obtain ⟨⟨chars, u⟩, hfind, heq⟩ := Option.map_eq_some_iff.mp h
        cases heq
        have hall : ∀ x ∈ symbols, x.2.EndsPlainly := by decide
        exact hall _ (List.mem_of_find?_eq_some hfind)

/-- The literals in a text without backslashes end plainly. -/
theorem endsPlainly_of_lex {l : List Char} {ts : List Token} (h : lex l = some ts)
    (hbackslash : '\\' ∉ l) : ∀ t ∈ ts, t.EndsPlainly := by
  induction hlength : l.length using Nat.strong_induction_on generalizing l ts with
  | _ n ih =>
      subst hlength
      cases l with
      | nil =>
          rw [lex] at h
          cases h
          exact fun t ht => absurd ht List.not_mem_nil
      | cons c rest =>
          rw [List.mem_cons, not_or] at hbackslash
          cases hspace : isSpace c with
          | true =>
              rw [lex_space hspace] at h
              exact ih rest.length (Nat.lt_succ_self _) h hbackslash.2 rfl
          | false =>
              obtain ⟨t, left, us, htoken, hshorter, hus, rfl⟩ := lex_cons hspace h
              obtain ⟨ht, hleft⟩ := endsPlainly_of_token? htoken hbackslash.2
              exact List.forall_mem_cons.mpr ⟨ht, ih left.length hshorter hus hleft rfl⟩

/-- A nested text has no backslash. -/
theorem Nested.backslash_notMem {l : List Char} (h : Nested l) : '\\' ∉ l := by
  have hplain {d : Char} (hd : isPlain d = true) : '\\' ≠ d := by
    rintro rfl
    cases hd
  induction h with
  | nil => exact List.not_mem_nil
  | plain hc _ ih => simp [ih, hplain hc]
  | parens _ _ ihinner ih => simp [ihinner, ih]
  | brackets _ _ ihinner ih => simp [ihinner, ih]
  | @literal content rest hcontent _ ih =>
      have hinner : '\\' ∉ content := fun hmem => hplain (hcontent _ hmem) rfl
      simp [hinner, ih]

/-- The literals in a nested text end plainly. -/
theorem Spells.parses {IsPart : List Token → Tree → Prop} (h : Spells IsPart s x) :
    Parses IsPart s x := by
  obtain ⟨ts, hlexes, hx⟩ := h.tokens
  exact ⟨ts, hlexes, endsPlainly_of_lex hlexes.lex_eq h.nested.backslash_notMem, hx⟩

/-! ### Texts that have a tree -/

/-- A text that is an expression, and whose string literals end plainly. -/
def HasTree (g : Strengths) (text : String) : Prop :=
  ∃ x, Parses (IsExpressionUnder g) text x

/-- **A text has a tree** if and only if it is read and its string literals end plainly. -/
theorem hasTree_iff : HasTree g s ↔
    ∃ ts x, lex s.toList = some ts ∧ (∀ t ∈ ts, t.EndsPlainly) ∧ readExpression g s = some x := by
  constructor
  · rintro ⟨x, ts, hlexes, hplain, hx⟩
    exact ⟨ts, x, hlexes.lex_eq, hplain, readExpression_eq hlexes hx⟩
  · rintro ⟨ts, x, hlex, hplain, hread⟩
    obtain ⟨us, hlexes, hx⟩ := readExpression_iff.mp hread
    obtain rfl : ts = us := Option.some.inj (hlex.symm.trans hlexes.lex_eq)
    exact ⟨x, ts, hlexes, hplain, hx⟩

/-- A term in a nested text has a tree. -/
theorem Spells.hasTree (h : Spells IsTerm s x) (g : Strengths) : HasTree g s :=
  ⟨x, h.operation.expression.parses.imp fun hx => hx g⟩

/-- The string literal of a text that does not end in a backslash. -/
theorem hasTree_quote (h : s.toList.getLast? ≠ some '\\') : HasTree g (Text.quote s) := by
  refine ⟨_, _, (sealed_quote s).lexes, ?_, (isOperand_literal _).isOperation.isExpression g⟩
  rw [List.forall_mem_singleton]
  exact endsPlainly_quoted.mpr h

/-- A binary operation, with the trees of its operands. -/
theorem Parses.binaryText (op : Infix) (hs : Parses (IsExpressionUnder g) s x)
    (ht : Parses (IsExpressionUnder g) t y) :
    Parses (IsExpressionUnder g) (Expr.binaryText op.operator.spelling s t) (.infixed op x y) := by
  obtain ⟨ts, hslexes, hsplain, hx⟩ := hs
  obtain ⟨us, htlexes, htplain, hy⟩ := ht
  refine ⟨_, lexes_binaryText op.operator hslexes htlexes, ?_,
    (hx.parenthesised.infixed op hy.parenthesised).isExpressionUnder⟩
  rw [List.forall_mem_append, List.forall_mem_cons]
  exact ⟨endsPlainly_parenthesised hsplain, trivial, endsPlainly_parenthesised htplain⟩

/-- A binary operation. -/
theorem HasTree.binaryText (op : Infix) (hs : HasTree g s) (ht : HasTree g t) :
    HasTree g (Expr.binaryText op.operator.spelling s t) := by
  obtain ⟨x, hx⟩ := hs
  obtain ⟨y, hy⟩ := ht
  exact ⟨_, hx.binaryText op hy⟩

/-- A unary operation, with the tree of its operand. -/
theorem Parses.unaryText (op : Prefix) (h : Parses (IsExpressionUnder g) s x) :
    Parses (IsExpressionUnder g) (Expr.unaryText op.operator.spelling s) (.prefixed op x) := by
  obtain ⟨ts, hlexes, hplain, hx⟩ := h
  refine ⟨_, lexes_unaryText op.operator hlexes, ?_,
    (hx.parenthesised.prefixed op).isOperationUnder.isExpressionUnder⟩
  exact List.forall_mem_cons.mpr ⟨trivial, endsPlainly_parenthesised hplain⟩

/-- A unary operation. -/
theorem HasTree.unaryText (op : Prefix) (h : HasTree g s) :
    HasTree g (Expr.unaryText op.operator.spelling s) := by
  obtain ⟨x, hx⟩ := h
  exact ⟨_, hx.unaryText op⟩

/-- Commas do not change how literals end. -/
theorem endsPlainly_separated {tss : List (List Token)} (h : ∀ ts ∈ tss, ∀ t ∈ ts, t.EndsPlainly) :
    ∀ t ∈ separated tss, t.EndsPlainly := by
  induction tss with
  | nil => exact fun t ht => absurd ht List.not_mem_nil
  | cons ts tss ih =>
      rw [List.forall_mem_cons] at h
      cases tss with
      | nil => exact h.1
      | cons us tss =>
          simp only [separated, List.forall_mem_append, List.forall_mem_cons]
          exact ⟨h.1, trivial, ih h.2⟩

/-- A call, with the trees of its arguments. -/
theorem parses_callText {f : String} (hword : IsWord f) (hf : Token.ofWord f = .word f)
    {texts : List String} {xs : List Tree}
    (h : List.Forall₂ (Parses (IsExpressionUnder g)) texts xs) :
    Parses (IsExpressionUnder g) (Expr.callText f texts) (.call f xs) := by
  have hcomma : IsComma ", " := .inl rfl
  obtain ⟨tss, hlexes, htss⟩ := lexes_intercalate hcomma h
  obtain ⟨hplain, hxs⟩ := (List.forall₂_and_left _ _).mp htss
  refine ⟨_, lexes_call hword hf hlexes, ?_,
    (isOperandUnder_call f hxs).isOperationUnder.isExpressionUnder⟩
  exact List.forall_mem_cons.mpr
    ⟨trivial, endsPlainly_parenthesised (endsPlainly_separated hplain)⟩

/-- The trees of several texts. -/
theorem exists_trees {texts : List String} (h : ∀ s ∈ texts, HasTree g s) :
    ∃ xs, List.Forall₂ (Parses (IsExpressionUnder g)) texts xs := by
  induction texts with
  | nil => exact ⟨[], .nil⟩
  | cons s texts ih =>
      rw [List.forall_mem_cons] at h
      obtain ⟨⟨x, hx⟩, htexts⟩ := h
      obtain ⟨xs, hxs⟩ := ih htexts
      exact ⟨x :: xs, .cons hx hxs⟩

/-- A call. -/
theorem hasTree_callText {f : String} (hword : IsWord f) (hf : Token.ofWord f = .word f)
    {texts : List String} (h : ∀ s ∈ texts, HasTree g s) : HasTree g (Expr.callText f texts) := by
  obtain ⟨xs, hxs⟩ := exists_trees h
  exact ⟨.call f xs, parses_callText hword hf hxs⟩

/-- A choice under a condition that is an operation, with the trees of its parts. -/
theorem Parses.choiceText (hs : Parses (IsOperationUnder g) s x)
    (ht : Parses (IsExpressionUnder g) t y) (hu : Parses (IsExpressionUnder g) u z) :
    Parses (IsExpressionUnder g) (Expr.choiceText s t u) (.choice x y z) := by
  obtain ⟨ts, hslexes, hsplain, hx⟩ := hs
  obtain ⟨us, htlexes, htplain, hy⟩ := ht
  obtain ⟨vs, hulexes, huplain, hz⟩ := hu
  refine ⟨_, lexes_choiceText hslexes htlexes hulexes, ?_,
    hx.choice hy.parenthesised hz.parenthesised⟩
  simp only [List.forall_mem_append, List.forall_mem_cons]
  exact ⟨hsplain, trivial, endsPlainly_parenthesised htplain, trivial,
    endsPlainly_parenthesised huplain⟩

/-- A choice under a condition that is an operation. -/
theorem HasTree.choiceText (hs : Parses (IsOperationUnder g) s x) (ht : HasTree g t)
    (hu : HasTree g u) : HasTree g (Expr.choiceText s t u) := by
  obtain ⟨y, hy⟩ := ht
  obtain ⟨z, hz⟩ := hu
  exact ⟨_, hs.choiceText hy hz⟩

end Grammar

namespace Expr

variable {k : Kind} {g : Strengths}

/-! ### Operands without parentheses -/

/-- A literal is a term. -/
theorem spells_constant {e : Expr k} (h : e.isConstant = true) : Spells IsTerm e.text e.tree := by
  induction e with
  | real x => exact Literal.spells_real x
  | integer n => exact Literal.spells_integer n
  | bool b => exact Literal.spells_bool b
  | ofInteger n ih => exact ih h
  | _ => cases h

/-- **An expression where only some operators may stand** at the top level holds together. -/
theorem binds_textIn {e : Expr k} {level : Nat} {allowed : List Char} {x : Tree}
    (h : Parses (IsExpressionUnder g) e.text x) (hallowed : Allows g level allowed) :
    Parses (Binds g level) (e.textIn allowed) x := by
  unfold textIn
  split
  next hconstant =>
      have hterm := spells_constant hconstant
      obtain rfl : e.tree = x :=
        Option.some.inj ((hterm.operation.expression.read g).symm.trans h.read)
      exact hterm.parses.imp fun hx => hx.binds g level
  next => exact binds_wrap h hallowed

/-- The condition of a choice is an operation. -/
theorem parses_condition {c : Expr .bool} {x : Tree} (h : Parses (IsExpressionUnder g) c.text x) :
    Parses (IsOperationUnder g) (c.textIn Grouping.tighterThanChoice) x := by
  have hallows : Allows g 0 Grouping.tighterThanChoice := ⟨by decide, fun _ _ => Nat.zero_le _⟩
  exact (binds_textIn h hallows).imp fun hx => hx.isOperationUnder

/-! ### Expressions -/

/-- Expressions of which the trusted texts can be read and the names are legal, and no path or mode
of which ends in a backslash. -/
def Readable (g : Strengths) : {k : Kind} → Expr k → Prop
  | _, .raw text => HasTree g text
  | _, .ident name => Name.check name = .ok ()
  | _, .real _ => True
  | _, .integer _ => True
  | _, .bool _ => True
  | _, .arith _ _ a b => a.Readable g ∧ b.Readable g
  | _, .compare _ _ a b => a.Readable g ∧ b.Readable g
  | _, .connect _ a b => a.Readable g ∧ b.Readable g
  | _, .neg _ a => a.Readable g
  | _, .complement a => a.Readable g
  | _, .not a => a.Readable g
  | _, .abs _ a => a.Readable g
  | _, .call _ x => x.Readable g
  | _, .call₂ _ x y => x.Readable g ∧ y.Readable g
  | _, .slew x r f => x.Readable g ∧ r.Readable g ∧ f.Readable g
  | _, .transition x d r f => x.Readable g ∧ d.Readable g ∧ r.Readable g ∧ f.Readable g
  | _, .power a b => a.Readable g ∧ b.Readable g
  | _, .round x => x.Readable g
  | _, .ofInteger n => n.Readable g
  | _, .indicator c => c.Readable g
  | _, .select c a b => c.Readable g ∧ a.Readable g ∧ b.Readable g
  | _, .access branch => ∀ t ∈ branch.texts, Name.check t = .ok ()
  | _, .environment _ => True
  | _, .analysis _ => True
  | _, .openFile path mode => ∀ t ∈ path :: mode.toList, t.toList.getLast? ≠ some '\\'

/-- **An expression that can be read** has a tree. -/
theorem Readable.hasTree {e : Expr k} (h : e.Readable g) : HasTree g e.text := by
  induction e with
  | raw text => exact h
  | ident name => exact (spells_name h).hasTree g
  | real x => exact (Literal.spells_real x).hasTree g
  | integer n => exact (Literal.spells_integer n).hasTree g
  | bool b => exact (Literal.spells_bool b).hasTree g
  | arith op _ a b iha ihb =>
      have hop : op.symbol = (Infix.ofArithmetic op).operator.spelling := by cases op <;> rfl
      rw [text, hop]
      exact (iha h.1).binaryText _ (ihb h.2)
  | compare op _ a b iha ihb =>
      have hop : op.symbol = (Infix.ofComparison op).operator.spelling := by cases op <;> rfl
      rw [text, hop]
      exact (iha h.1).binaryText _ (ihb h.2)
  | connect op a b iha ihb =>
      have hop : op.symbol = (Infix.ofConnective op).operator.spelling := by cases op <;> rfl
      rw [text, hop]
      exact (iha h.1).binaryText _ (ihb h.2)
  | neg _ a ih => exact (ih h).unaryText .minus
  | complement a ih => exact (ih h).unaryText .complement
  | not a ih => exact (ih h).unaryText .not
  | abs _ a ih => exact hasTree_callText (by decide) (by decide) (by simp [ih h])
  | call f a ih =>
      exact hasTree_callText (by cases f <;> decide) (by cases f <;> decide) (by simp [ih h])
  | call₂ f a b iha ihb =>
      exact hasTree_callText (by cases f <;> decide) (by cases f <;> decide)
        (by simp [iha h.1, ihb h.2])
  | slew a r f iha ihr ihf =>
      obtain ⟨ha, hr, hf⟩ := h
      exact hasTree_callText (by decide) (by decide) (by simp [iha ha, ihr hr, ihf hf])
  | transition a d r f iha ihd ihr ihf =>
      obtain ⟨ha, hd, hr, hf⟩ := h
      exact hasTree_callText (by decide) (by decide) (by simp [iha ha, ihd hd, ihr hr, ihf hf])
  | power a b iha ihb =>
      have hpow : HasTree g (callText "pow" [a.text, b.text]) :=
        hasTree_callText (by decide) (by decide) (by simp [iha h.1, ihb h.2])
      exact hasTree_callText (by decide) (by decide) (by simp [hpow])
  | round a ih => exact hasTree_callText (by decide) (by decide) (by simp [ih h])
  | ofInteger n ih => exact ih h
  | indicator c ih =>
      obtain ⟨x, hx⟩ := ih h
      exact HasTree.choiceText (parses_condition hx) (Literal.spells_one.term.hasTree g)
        (Literal.spells_zero.term.hasTree g)
  | select c a b ihc iha ihb =>
      obtain ⟨x, hx⟩ := ihc h.1
      exact HasTree.choiceText (parses_condition hx) (iha h.2.1) (ihb h.2.2)
  | access branch => exact (Branch.spells_text h).term.hasTree g
  | environment quantity =>
      exact (spells_word (by cases quantity <;> decide) (by cases quantity <;> decide)).hasTree g
  | analysis types =>
      refine hasTree_callText (f := "analysis") (by decide) (by decide) ?_
      rw [List.forall_mem_map]
      intro a _
      exact hasTree_quote (by cases a <;> decide)
  | openFile path mode =>
      have htexts : ∀ t ∈ (path :: mode.toList).map Text.quote, HasTree g t := by
        rw [List.forall_mem_map]
        exact fun t ht => hasTree_quote (h t ht)
      cases mode with
      | none => exact hasTree_callText (by decide) (by decide) htexts
      | some mode => exact hasTree_callText (by decide) (by decide) htexts

end Expr

end Stimulus
