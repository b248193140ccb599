import Stimulus.Proofs.Grammar.Expression
import Stimulus.Proofs.Grammar.Nesting
import Stimulus.Proofs.Rounding.Given

/-!
# Reading expressions back

The text of an expression is read as the tree of the expression: a node for each node, and nothing
for the parentheses. An integer that is used as a real and a text that is trusted leave no trace
either, and a negative literal is a minus sign in front of a number.

The induction is over the nodes. A node that has operands puts them in parentheses, so all it needs
of them is that they are expressions. The condition of a choice alone may stand without parentheses.
It has to be an operation, and it is one unless it is itself a choice, whose question mark
is found and which is then put in parentheses. For that the text of a condition has to be nested.

## Main definitions

* `Expr.tree`
* `Expr.Legible`: expressions whose names can be read

## Main results

* `spells_binaryText`, `spells_choiceText`, `spells_arguments`: how composed texts are read.
* `Expr.reads_text`: the text of an expression is read as its tree.
-/

namespace Stimulus.Grammar

/-! ### Trees of constants and operators -/

/-- The tree of an integer literal. -/
def Tree.ofInt : Int → Tree
  | .ofNat n => .number (toString n)
  | .negSucc n => .prefixed .minus (.number (toString (n + 1)))

/-- The tree of a real literal. What is not a number is written as a quotient, and infinity as a
name. -/
def Tree.ofBinary64 : Binary64 → Tree
  | .nan => .infixed .div (.number "0.0") (.number "0.0")
  | .infinite false => .name "inf"
  | .infinite true => .prefixed .minus (.name "inf")
  | .finite false significand power => .number (Literal.magnitude significand power)
  | .finite true significand power =>
    .prefixed .minus (.number (Literal.magnitude significand power))

/-- The tree of a bool literal. -/
def Tree.ofBool (b : Bool) : Tree :=
  .number (Literal.bool b)

/-- An arithmetic operator in a tree. -/
def Infix.ofArithmetic : Arithmetic → Infix
  | .add => .add
  | .sub => .sub
  | .mul => .mul
  | .div => .div
  | .rem => .rem
  | .shl => .shl
  | .shr => .shr
  | .bitAnd => .bitAnd
  | .bitOr => .bitOr
  | .bitXor => .bitXor

/-- A comparison in a tree. -/
def Infix.ofComparison : Comparison → Infix
  | .lt => .lt
  | .le => .le
  | .gt => .gt
  | .ge => .ge
  | .eq => .eq
  | .ne => .ne

/-- A connective in a tree. -/
def Infix.ofConnective : Connective → Infix
  | .and => .and
  | .or => .or
  | .xor => .bitXor

/-- The tree of a net. -/
def Tree.ofNet : Net → Tree
  | .scalar net => .name net
  | .bit bus index => .element bus (.number (toString index))

/-- The access function of a quantity. -/
def Tree.accessName : Nature → String
  | .potential => "V"
  | .flow => "I"

/-- The tree of a branch: its access function, applied to one net or two. -/
def Tree.ofBranch (b : Branch) : Tree :=
  .call (accessName b.nature) (ofNet b.positive :: (b.negative.map ofNet).toList)

/-! ### The forms of expressions -/

/-- A nested text whose tokens are an operand, an operation or an expression, with its tree. -/
structure Spells (IsPart : List Token → Tree → Prop) (text : String) (x : Tree) : Prop where
  nested : Nested text.toList
  tokens : ∃ ts, Lexes text ts ∧ IsPart ts x

section Forms

variable {s t u : String} {x y z : Tree} {ts : List Token}

/-- An operand is a term. -/
theorem Spells.term (h : Spells IsOperand s x) : Spells IsTerm s x :=
  ⟨h.nested, h.tokens.imp fun _ h => ⟨h.1, h.2.isTerm⟩⟩

/-- A term is an operation. -/
theorem Spells.operation (h : Spells IsTerm s x) : Spells IsOperation s x :=
  ⟨h.nested, h.tokens.imp fun _ h => ⟨h.1, h.2.isOperation⟩⟩

/-- An operation is an expression. -/
theorem Spells.expression (h : Spells IsOperation s x) : Spells IsExpression s x :=
  ⟨h.nested, h.tokens.imp fun _ h => ⟨h.1, h.2.isExpression⟩⟩

/-- **A text that is an expression** is read as its tree. -/
theorem Spells.read (h : Spells IsExpression s x) (g : Strengths) :
    readExpression g s = some x := by
  obtain ⟨ts, hlexes, hexpression⟩ := h.tokens
  exact readExpression_eq hlexes (hexpression g)

/-- The tokens of a text in parentheses. -/
theorem sealed_operandText (h : Lexes s ts) : Sealed ("( " ++ s ++ " )") (parenthesised ts) := by
  have hopen : Sealed "( " [.mark .openParen] :=
    (sealed_mark (s := "(") (by decide) rfl).append (sealed_spaces (s := " ") (by decide))
  have hclose : Sealed " )" [.mark .closeParen] :=
    (sealed_spaces (s := " ") (by decide)).append (sealed_mark (s := ")") (by decide) rfl)
  exact (hopen.append_lexes h).append_sealed hclose (by decide)

/-- A text in parentheses starts with a delimiter. -/
theorem separated_operandText : Separated ("( " ++ s ++ " )") := by
  have hopen : "( ".toList = ['(', ' '] := rfl
  refine ⟨by simp [hopen], ?_⟩
  intro c hc
  simp only [String.toList_append, hopen, List.cons_append, List.head?_cons] at hc
  obtain rfl := Option.some.inj hc
  decide

/-- Characters of one sort are plain if no other character has that sort. -/
theorem isPlain_of {p : Char → Bool}
    (hp : ∀ c ∈ ['(', ')', '[', ']', '"', '\\'], p c = false) {c : Char} (hc : p c = true) :
    isPlain c = true := by
  rw [isPlain, Bool.not_eq_true', Bool.eq_false_iff]
  intro hmem
  rw [hp c (List.contains_iff_mem.mp hmem)] at hc
  cases hc

/-- No word is made of parentheses or quotes. -/
theorem IsWord.isPlain {word : String} (h : IsWord word) : word.toList.all isPlain = true := by
  obtain ⟨hstart, hrest⟩ := h
  cases hword : word.toList with
  | nil => rfl
  | cons c rest =>
      rw [hword] at hstart hrest
      rw [List.all_cons, isPlain_of (p := isWordStart) (by decide) hstart, Bool.true_and,
        List.all_eq_true]
      intro d hd
      exact isPlain_of (p := Name.isRest) (by decide) (List.all_eq_true.mp hrest d hd)

/-- A text in parentheses is an operand. -/
theorem spells_operandText (h : Spells IsExpression s x) :
    Spells IsOperand ("( " ++ s ++ " )") x := by
  obtain ⟨ts, hlexes, hx⟩ := h.tokens
  exact ⟨nested_operand h.nested, _, (sealed_operandText hlexes).lexes, hx.parenthesised⟩

/-- No operator is made of parentheses or quotes. -/
theorem isPlain_spelling (o : Operator) : o.spelling.toList.all isPlain = true := by
  cases o <;> decide

/-- The tokens of a binary operation. -/
theorem lexes_binaryText {us : List Token} (o : Operator) (hs : Lexes s ts) (ht : Lexes t us) :
    Lexes (Expr.binaryText o.spelling s t)
      (parenthesised ts ++ .operator o :: parenthesised us) := by
  have hlexes := ((sealed_operandText hs).append_lexes (lexes_operator o)).append
    (sealed_operandText ht).lexes separated_operandText
  simpa [Expr.binaryText, String.append_assoc] using hlexes

/-- A binary operation. -/
theorem spells_binaryText (op : Infix) (hs : Spells IsExpression s x)
    (ht : Spells IsExpression t y) :
    Spells IsOperation (Expr.binaryText op.operator.spelling s t) (.infixed op x y) := by
  obtain ⟨ts, hslexes, hx⟩ := hs.tokens
  obtain ⟨us, htlexes, hy⟩ := ht.tokens
  exact ⟨nested_binaryText (isPlain_spelling _) hs.nested ht.nested, _,
    lexes_binaryText op.operator hslexes htlexes, hx.parenthesised.infixed op hy.parenthesised⟩

/-- The tokens of a unary operation. -/
theorem lexes_unaryText (o : Operator) (h : Lexes s ts) :
    Lexes (Expr.unaryText o.spelling s) (.operator o :: parenthesised ts) := by
  have hlexes := (lexes_operator o).append (sealed_operandText h).lexes separated_operandText
  simpa [Expr.unaryText, String.append_assoc] using hlexes

/-- A unary operation. -/
theorem spells_unaryText (op : Prefix) (h : Spells IsExpression s x) :
    Spells IsOperand (Expr.unaryText op.operator.spelling s) (.prefixed op x) := by
  obtain ⟨ts, hlexes, hx⟩ := h.tokens
  exact ⟨nested_unaryText (isPlain_spelling _) h.nested, _, lexes_unaryText op.operator hlexes,
    hx.parenthesised.prefixed op⟩

/-- A comma, with a blank after it or without. -/
def IsComma (comma : String) : Prop :=
  comma = ", " ∨ comma = ","

/-- A comma separates. -/
theorem IsComma.sealed {comma : String} (h : IsComma comma) :
    Sealed comma [.mark .comma] ∧ Separated comma ∧ comma.toList.all isPlain = true := by
  have hcomma : Sealed "," [.mark .comma] := sealed_mark (by decide) rfl
  rcases h with rfl | rfl
  · exact ⟨hcomma.append (sealed_spaces (s := " ") (by decide)), by decide, by decide⟩
  · exact ⟨hcomma, by decide, by decide⟩

/-- Nested texts between commas. -/
theorem nested_intercalate {comma : String} (hcomma : IsComma comma) {texts : List String}
    {xs : List Tree} (h : List.Forall₂ (Spells IsExpression) texts xs) :
    Nested (String.intercalate comma texts).toList := by
  have hplain := hcomma.sealed.2.2
  induction h with
  | nil => exact .nil
  | @cons s x texts xs hs hrest ih =>
      cases hrest with
      | nil =>
          rw [String.intercalate_singleton]
          exact hs.nested
      | cons _ _ =>
          rw [String.intercalate_cons_cons]
          exact nested_append (nested_append hs.nested (nested_plain hplain)) ih

/-- Arguments between commas. -/
theorem lexes_intercalate {comma : String} (hcomma : IsComma comma)
    {IsPart : List Token → Tree → Prop} {texts : List String} {xs : List Tree}
    (h : List.Forall₂ (fun s x => ∃ ts, Lexes s ts ∧ IsPart ts x) texts xs) :
    ∃ tss, Lexes (String.intercalate comma texts) (separated tss) ∧
      List.Forall₂ IsPart tss xs := by
  obtain ⟨hsealed, hseparated, -⟩ := hcomma.sealed
  induction h with
  | nil => exact ⟨[], sealed_empty.lexes, .nil⟩
  | @cons s x texts xs hs hrest ih =>
      obtain ⟨ts, hlexes, hx⟩ := hs
      obtain ⟨tss, hmore, hxs⟩ := ih
      cases hrest with
      | nil =>
          cases hxs
          rw [String.intercalate_singleton]
          exact ⟨[ts], hlexes, .cons hx .nil⟩
      | cons _ _ =>
          cases hxs with
          | cons hy hys =>
              rw [String.intercalate_cons_cons]
              refine ⟨_, ?_, .cons hx (.cons hy hys)⟩
              refine ((hlexes.append_sealed hsealed hseparated).append_lexes hmore).of_eq ?_
              simp [separated]

/-- The tokens of a call. -/
theorem lexes_call {f : String} (hword : IsWord f) (hf : Token.ofWord f = .word f)
    (h : Lexes s ts) : Lexes (f ++ "(" ++ s ++ ")") (.word f :: parenthesised ts) := by
  have hopen : Sealed "(" [.mark .openParen] := sealed_mark (by decide) rfl
  have hclose : Sealed ")" [.mark .closeParen] := sealed_mark (by decide) rfl
  have hcall := (((lexes_word hword).append_sealed hopen (by decide)).append_lexes
    h).append_sealed hclose (by decide)
  exact hcall.lexes.of_eq (by simp [hf, parenthesised])

/-- Arguments in parentheses behind the name of a function. -/
theorem spells_arguments {f comma : String} (hword : IsWord f) (hf : Token.ofWord f = .word f)
    (hcomma : IsComma comma) {texts : List String} {xs : List Tree}
    (h : List.Forall₂ (Spells IsExpression) texts xs) :
    Spells IsOperand (f ++ "(" ++ String.intercalate comma texts ++ ")") (.call f xs) := by
  obtain ⟨tss, hlexes, hxs⟩ := lexes_intercalate hcomma (h.imp fun _ _ hs => hs.tokens)
  refine ⟨?_, _, lexes_call hword hf hlexes, isOperand_call f hxs⟩
  have hnested := nested_append (nested_plain hword.isPlain)
    (nested_arguments (nested_intercalate hcomma h))
  simpa [String.append_assoc] using hnested

/-- A call. -/
theorem spells_callText {f : String} (hword : IsWord f) (hf : Token.ofWord f = .word f)
    {texts : List String} {xs : List Tree} (h : List.Forall₂ (Spells IsExpression) texts xs) :
    Spells IsOperand (Expr.callText f texts) (.call f xs) :=
  spells_arguments hword hf (.inl rfl) h

/-- The tokens of a choice. -/
theorem lexes_choiceText {us vs : List Token} (hs : Lexes s ts) (ht : Lexes t us)
    (hu : Lexes u vs) : Lexes (Expr.choiceText s t u)
      (ts ++ .mark .question :: (parenthesised us ++ .mark .colon :: parenthesised vs)) := by
  have hquestion : Sealed " ? " [.mark .question] :=
    ((sealed_spaces (s := " ") (by decide)).append (sealed_mark (s := "?") (by decide) rfl)).append
      (sealed_spaces (s := " ") (by decide))
  have hcolon : Sealed " : " [.mark .colon] :=
    ((sealed_spaces (s := " ") (by decide)).append (sealed_mark (s := ":") (by decide) rfl)).append
      (sealed_spaces (s := " ") (by decide))
  have hyes := (hs.append_sealed hquestion (by decide)).append (sealed_operandText ht)
  have hno := (hyes.append hcolon).append (sealed_operandText hu)
  rw [choiceText_eq]
  exact hno.lexes.of_eq (by simp)

/-- A choice. -/
theorem spells_choiceText (hs : Spells IsOperation s x) (ht : Spells IsExpression t y)
    (hu : Spells IsExpression u z) :
    Spells IsExpression (Expr.choiceText s t u) (.choice x y z) := by
  obtain ⟨ts, hslexes, hx⟩ := hs.tokens
  obtain ⟨us, htlexes, hy⟩ := ht.tokens
  obtain ⟨vs, hulexes, hz⟩ := hu.tokens
  exact ⟨nested_choiceText hs.nested ht.nested hu.nested, _,
    lexes_choiceText hslexes htlexes hulexes, hx.choice hy.parenthesised hz.parenthesised⟩

/-- A text that was put in parentheses where needed is an operation if it is one without them. -/
theorem spells_wrap (allowed : List Char) (h : Spells IsOperation s x) :
    Spells IsOperation (Grouping.wrap allowed s) x := by
  unfold Grouping.wrap
  split
  · exact h
  · exact (spells_operandText h.expression).term.operation

/-- A number is an operand. -/
theorem spells_number (h : IsNumber s) : Spells IsOperand s (.number s) := by
  refine ⟨.of_plain fun c hc => ?_, _, h.lexes, isOperand_number s⟩
  rcases h.mem_toList hc with hc | hc
  · exact isPlain_of (p := Char.isDigit) (by decide) hc
  · exact isPlain_of (p := fun c => ['.', 'e', '+', '-'].contains c) (by decide)
      (List.contains_iff_mem.mpr hc)

/-- A word that is not reserved is a term. -/
theorem spells_word (hword : IsWord s) (hname : Token.ofWord s = .word s) :
    Spells IsTerm s (.name s) :=
  ⟨nested_plain hword.isPlain, _, (lexes_word hword).of_eq (by rw [hname]), isTerm_name s⟩

/-- A minus sign in front of a term. -/
theorem spells_minus (h : Spells IsTerm s x) : Spells IsTerm ("-" ++ s) (.prefixed .minus x) := by
  obtain ⟨ts, hlexes, hx⟩ := h.tokens
  have hminus : Sealed "-" [.operator .minus] := sealed_operator (.inl rfl) rfl
  exact ⟨nested_append (nested_plain (by decide)) h.nested, _, hminus.append_lexes hlexes,
    hx.prefixed .minus⟩

/-- A name is a term. -/
theorem spells_name (h : Name.check s = .ok ()) : Spells IsTerm s (.name s) := by
  refine ⟨.of_plain fun c hc => ?_, _, lexes_name h, isTerm_name s⟩
  exact isPlain_of (p := Name.isRest) (by decide)
    (Name.isRest_of_isIdentifier (Name.check_eq_ok.mp h).1 hc)

/-- The string literal of a text that is made like a name is an operand. -/
theorem spells_quote (h : ∀ c ∈ s.toList, Name.isRest c = true) :
    Spells IsOperand (Text.quote s) (.literal s) := by
  have hplain : ∀ c ∈ s.toList, isPlain c = true := fun c hc =>
    isPlain_of (p := Name.isRest) (by decide) (h c hc)
  have hescape : s.toList.flatMap Text.escape = s.toList := by
    have hsingle : ∀ c ∈ s.toList, Text.escape c = [c] := by
      intro c hc
      obtain ⟨-, -, -, -, hquote, hbackslash⟩ := isPlain_iff.mp (hplain c hc)
      have hfeed : c ≠ '\n' := by
        rintro rfl
        exact absurd (h _ hc) (by decide)
      have htab : c ≠ '\t' := by
        rintro rfl
        exact absurd (h _ hc) (by decide)
      simp [Text.escape, hquote, hbackslash, hfeed, htab]
    rw [List.flatMap_congr hsingle, List.flatMap_singleton']
  have hquoted : quoted s = s := by
    rw [quoted, hescape, String.ofList_toList]
  refine ⟨?_, _, (sealed_quote s).lexes, ?_⟩
  · rw [Text.quote, hescape, String.toList_ofList]
    exact .literal hplain .nil
  · rw [hquoted]
    exact isOperand_literal s

end Forms

end Stimulus.Grammar

namespace Stimulus

open Grammar

/-! ### Literals and nets -/

/-- The text of an integer literal. -/
theorem Literal.spells_integer (n : Int) : Spells IsTerm (Literal.integer n) (Tree.ofInt n) := by
  cases n with
  | ofNat n => exact (spells_number (isNumber_natural n)).term
  | negSucc n => exact spells_minus (spells_number (isNumber_natural (n + 1))).term

/-- The quotient that is written for what is not a number. -/
theorem Literal.spells_quotient :
    Spells IsOperand "(0.0/0.0)" (.infixed .div (.number "0.0") (.number "0.0")) := by
  have hzero : IsNumber "0.0" := isNumber_decimal (show _ = ['0'] ++ '.' :: ['0'] from rfl)
    (by decide) (by decide)
  have hopen : Sealed "(" [.mark .openParen] := sealed_mark (by decide) rfl
  have hclose : Sealed ")" [.mark .closeParen] := sealed_mark (by decide) rfl
  have hover : Sealed "/" [.operator .over] := sealed_operator (.inr rfl) rfl
  have hlexes := (hopen.append_lexes ((hzero.lexes.append_sealed hover (by decide)).append_lexes
    hzero.lexes)).append_sealed hclose (by decide)
  have hquotient := (isOperand_number "0.0").infixed .div (isOperand_number "0.0")
  have hnested : Nested ("(" ++ "0.0/0.0" ++ ")").toList :=
    nested_arguments (nested_plain (by decide))
  exact ⟨hnested, _, hlexes.lexes, hquotient.isExpression.parenthesised⟩

/-- The indicator of a condition that holds. -/
theorem Literal.spells_one : Spells IsOperand "1.0" (.number "1.0") :=
  spells_number (isNumber_decimal (show _ = ['1'] ++ '.' :: ['0'] from rfl) (by decide) (by decide))

/-- The indicator of a condition that does not hold. -/
theorem Literal.spells_zero : Spells IsOperand "0.0" (.number "0.0") :=
  spells_number (isNumber_decimal (show _ = ['0'] ++ '.' :: ['0'] from rfl) (by decide) (by decide))

/-- The text of a real literal. -/
theorem Literal.spells_real (x : Float) :
    Spells IsTerm (Literal.real x) (Tree.ofBinary64 (.ofFloat x)) := by
  have hinf := spells_word (s := "inf") (by decide) (by decide)
  have hmagnitude (m : Nat) (q : Int) : Spells IsTerm (magnitude m q) (.number (magnitude m q)) :=
    (spells_number (isNumber_scientific _ _)).term
  unfold Literal.real
  cases Binary64.ofFloat x with
  | nan => exact spells_quotient.term
  | infinite negative =>
      cases negative with
      | false => exact hinf
      | true => exact spells_minus hinf
  | finite negative significand power =>
      cases negative with
      | false => exact hmagnitude significand power
      | true => exact spells_minus (hmagnitude significand power)

/-- The text of a bool literal. -/
theorem Literal.spells_bool (b : Bool) : Spells IsTerm (Literal.bool b) (Tree.ofBool b) := by
  cases b
  · exact (spells_number (isNumber_natural 0)).term
  · exact (spells_number (isNumber_natural 1)).term

/-- The text of a net. -/
theorem Net.spells_name {n : Net} (h : Name.check n.given = .ok ()) :
    Spells IsTerm n.name (Tree.ofNet n) := by
  have hname := Grammar.spells_name h
  cases n with
  | scalar name => exact hname
  | bit bus index =>
      have hnumber := spells_number (isNumber_natural index)
      have hopen : Sealed "[" [.mark .openBracket] := sealed_mark (by decide) rfl
      have hclose : Sealed "]" [.mark .closeBracket] := sealed_mark (by decide) rfl
      have hlexes := (((lexes_name h).append_sealed hopen (by decide)).append_lexes
        (isNumber_natural index).lexes).append_sealed hclose (by decide)
      refine Spells.term ⟨?_, _, hlexes.lexes, isOperand_element bus (toString index)⟩
      have hindex : Nested ("[" ++ toString index ++ "]").toList := by
        have hbracket : ("[" ++ toString index ++ "]").toList
            = '[' :: ((toString index).toList ++ [']']) := by
          simp
        rw [hbracket]
        exact .brackets hnumber.nested .nil
      have hnested : Nested (bus ++ ("[" ++ toString index ++ "]")).toList :=
        nested_append hname.nested hindex
      rwa [← String.append_assoc, ← String.append_assoc] at hnested

/-- The text of a branch. -/
theorem Branch.spells_text {b : Branch} (h : ∀ t ∈ b.texts, Name.check t = .ok ()) :
    Spells IsOperand b.text (Tree.ofBranch b) := by
  obtain ⟨nature, positive, negative⟩ := b
  have hpositive := (Net.spells_name (h positive.given (by simp [texts]))).operation.expression
  have hnets : List.Forall₂ (Spells IsExpression)
      (positive.name :: (negative.map Net.name).toList)
      (Tree.ofNet positive :: (negative.map Tree.ofNet).toList) := by
    refine .cons hpositive ?_
    cases negative with
    | none => exact .nil
    | some negative =>
        exact .cons (Net.spells_name (h negative.given (by simp [texts]))).operation.expression .nil
  have htext : text ⟨nature, positive, negative⟩ = Tree.accessName nature ++ "("
      ++ String.intercalate "," (positive.name :: (negative.map Net.name).toList) ++ ")" := by
    cases negative with
    | none => cases nature <;> simp [text, Tree.accessName, String.intercalate_singleton]
    | some negative =>
        cases nature <;> simp [text, Tree.accessName, String.intercalate_cons_cons,
          String.intercalate_singleton, String.append_assoc]
  rw [htext]
  exact spells_arguments (by cases nature <;> decide) (by cases nature <;> decide) (.inr rfl) hnets

namespace Expr

/-- The tree of an expression. -/
def tree : {k : Kind} → Expr k → Tree
  | _, .raw text => .name text
  | _, .ident name => .name name
  | _, .real x => .ofBinary64 (.ofFloat x)
  | _, .integer n => .ofInt n
  | _, .bool b => .ofBool b
  | _, .arith op _ a b => .infixed (.ofArithmetic op) a.tree b.tree
  | _, .compare op _ a b => .infixed (.ofComparison op) a.tree b.tree
  | _, .connect op a b => .infixed (.ofConnective op) a.tree b.tree
  | _, .neg _ a => .prefixed .minus a.tree
  | _, .complement a => .prefixed .complement a.tree
  | _, .not a => .prefixed .not a.tree
  | _, .abs _ a => .call "abs" [a.tree]
  | _, .call f x => .call f.name [x.tree]
  | _, .call₂ f x y => .call f.name [x.tree, y.tree]
  | _, .slew x r f => .call "slew" [x.tree, r.tree, f.tree]
  | _, .transition x d r f => .call "transition" [x.tree, d.tree, r.tree, f.tree]
  | _, .power a b => .call roundName [.call "pow" [a.tree, b.tree]]
  | _, .round x => .call roundName [x.tree]
  | _, .ofInteger n => n.tree
  | _, .indicator c => .choice c.tree (.number "1.0") (.number "0.0")
  | _, .select c a b => .choice c.tree a.tree b.tree
  | _, .access b => .ofBranch b
  | _, .environment q => .name q.name
  | _, .analysis types => .call "analysis" (types.map fun a => .literal a.name)
  | _, .openFile path mode => .call "$fopen" ((path :: mode.toList).map .literal)

/-- Expressions of which every text that they are written with is a name. -/
def Legible {k : Kind} (e : Expr k) : Prop :=
  ∀ t ∈ e.texts, Name.check t = .ok ()

/-- What an expression is read as: an operation, or a choice, which is no literal. -/
inductive Reads {k : Kind} (e : Expr k) : Prop
  | operation (h : Spells IsOperation e.text e.tree)
  | choice {s t u : String} (hconstant : e.isConstant = false) (htext : e.text = choiceText s t u)
      (hs : Nested s.toList) (h : Spells IsExpression e.text e.tree)

/-- In both cases it is read as an expression. -/
theorem Reads.expression {k : Kind} {e : Expr k} (h : e.Reads) :
    Spells IsExpression e.text e.tree := by
  cases h with
  | operation h => exact h.expression
  | choice _ _ _ h => exact h

/-- An operand is an operation. -/
theorem Reads.operand {k : Kind} {e : Expr k} (h : Spells IsOperand e.text e.tree) : e.Reads :=
  .operation h.term.operation

/-- **The condition of a choice** is an operation. -/
theorem Reads.condition {k : Kind} {e : Expr k} (h : e.Reads) :
    Spells IsOperation
      (if e.isConstant then e.text else Grouping.wrap Grouping.tighterThanChoice e.text)
      e.tree := by
  cases h with
  | operation h =>
      split
      · exact h
      · exact spells_wrap _ h
  | choice hconstant htext hs h =>
      rw [if_neg (by simp [hconstant])]
      rw [htext] at h ⊢
      rw [wrap_choiceText hs]
      exact (spells_operandText h).term.operation

/-- **An expression is read as its tree.** -/
theorem reads_text {k : Kind} (e : Expr k) (h : e.Legible) : e.Reads := by
  induction e with
  | raw text => exact .operation (spells_name (h text (by simp [texts]))).operation
  | ident name => exact .operation (spells_name (h name (by simp [texts]))).operation
  | real x => exact .operation (Literal.spells_real x).operation
  | integer n => exact .operation (Literal.spells_integer n).operation
  | bool b => exact .operation (Literal.spells_bool b).operation
  | arith op defined lhs rhs ihl ihr =>
      simp only [Legible, texts, List.forall_mem_append] at h
      have hop : op.symbol = (Infix.ofArithmetic op).operator.spelling := by cases op <;> rfl
      refine .operation ?_
      rw [text, hop]
      exact spells_binaryText _ (ihl h.1).expression (ihr h.2).expression
  | compare op defined lhs rhs ihl ihr =>
      simp only [Legible, texts, List.forall_mem_append] at h
      have hop : op.symbol = (Infix.ofComparison op).operator.spelling := by cases op <;> rfl
      refine .operation ?_
      rw [text, hop]
      exact spells_binaryText _ (ihl h.1).expression (ihr h.2).expression
  | connect op lhs rhs ihl ihr =>
      simp only [Legible, texts, List.forall_mem_append] at h
      have hop : op.symbol = (Infix.ofConnective op).operator.spelling := by cases op <;> rfl
      refine .operation ?_
      rw [text, hop]
      exact spells_binaryText _ (ihl h.1).expression (ihr h.2).expression
  | neg numeric operand ih =>
      exact .operation (spells_unaryText .minus (ih h).expression).term.operation
  | complement operand ih =>
      exact .operation (spells_unaryText .complement (ih h).expression).term.operation
  | not operand ih => exact .operation (spells_unaryText .not (ih h).expression).term.operation
  | abs numeric operand ih =>
      exact .operand (spells_callText (by decide) (by decide) (.cons (ih h).expression .nil))
  | call f x ih =>
      exact .operand (spells_callText (by cases f <;> decide) (by cases f <;> decide)
        (.cons (ih h).expression .nil))
  | call₂ f x y ihx ihy =>
      simp only [Legible, texts, List.forall_mem_append] at h
      exact .operand (spells_callText (by cases f <;> decide) (by cases f <;> decide)
        (.cons (ihx h.1).expression (.cons (ihy h.2).expression .nil)))
  | slew x maxRise maxFall ihx ihr ihf =>
      simp only [Legible, texts, List.forall_mem_append] at h
      obtain ⟨⟨hx, hr⟩, hf⟩ := h
      exact .operand (spells_callText (by decide) (by decide) (.cons (ihx hx).expression
        (.cons (ihr hr).expression (.cons (ihf hf).expression .nil))))
  | transition x delay rise fall ihx ihd ihr ihf =>
      simp only [Legible, texts, List.forall_mem_append] at h
      obtain ⟨⟨⟨hx, hd⟩, hr⟩, hf⟩ := h
      exact .operand (spells_callText (by decide) (by decide) (.cons (ihx hx).expression
        (.cons (ihd hd).expression (.cons (ihr hr).expression (.cons (ihf hf).expression .nil)))))
  | power base exponent ihb ihe =>
      simp only [Legible, texts, List.forall_mem_append] at h
      have hpow := spells_callText (f := "pow") (by decide) (by decide)
        (.cons (ihb h.1).expression (.cons (ihe h.2).expression .nil))
      exact .operand (spells_callText (by decide) (by decide)
        (.cons hpow.term.operation.expression .nil))
  | round x ih =>
      exact .operand (spells_callText (by decide) (by decide) (.cons (ih h).expression .nil))
  | ofInteger n ih =>
      -- An integer is written as a real without change.
      cases ih h with
      | operation h => exact .operation h
      | choice hconstant htext hs h => exact .choice hconstant htext hs h
  | indicator condition ih =>
      have hcondition := (ih h).condition
      exact .choice rfl rfl hcondition.nested (spells_choiceText hcondition
        Literal.spells_one.term.operation.expression Literal.spells_zero.term.operation.expression)
  | select condition yes no ihc ihy ihn =>
      simp only [Legible, texts, List.forall_mem_append] at h
      obtain ⟨⟨hc, hy⟩, hn⟩ := h
      have hcondition := (ihc hc).condition
      exact .choice rfl rfl hcondition.nested
        (spells_choiceText hcondition (ihy hy).expression (ihn hn).expression)
  | access branch => exact .operand (Branch.spells_text h)
  | environment quantity =>
      exact .operation (spells_word (by cases quantity <;> decide)
        (by cases quantity <;> decide)).operation
  | analysis types =>
      have hname (a : Analysis) : Spells IsExpression (Text.quote a.name) (.literal a.name) := by
        refine (spells_quote ?_).term.operation.expression
        cases a <;> decide
      have hnames : List.Forall₂ (Spells IsExpression) (types.map fun a => Text.quote a.name)
          (types.map fun a => .literal a.name) := by
        rw [List.forall₂_map_left_iff, List.forall₂_map_right_iff, List.forall₂_same]
        exact fun a _ => hname a
      exact .operand (spells_callText (f := "analysis") (by decide) (by decide) hnames)
  | openFile path mode =>
      have hquote {t : String} (ht : t ∈ (openFile path mode).texts) :
          Spells IsExpression (Text.quote t) (.literal t) :=
        (spells_quote fun c hc => Name.isRest_of_isIdentifier
          (Name.check_eq_ok.mp (h t ht)).1 hc).term.operation.expression
      have hpath := hquote (t := path) (by simp [texts])
      cases mode with
      | none => exact .operand (spells_callText (by decide) (by decide) (.cons hpath .nil))
      | some mode =>
          have hmode := hquote (t := mode) (by simp [texts])
          exact .operand (spells_callText (by decide) (by decide) (.cons hpath (.cons hmode .nil)))

end Expr

end Stimulus
