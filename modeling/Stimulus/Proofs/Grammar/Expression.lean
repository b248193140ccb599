import Stimulus.Proofs.Grammar.Lexeme

/-!
# The grammar of expressions

Expressions as the simulator reads them: unary operators bind more tightly than binary ones, each
binary operator has a **strength**, operators of one strength associate to the left, and the choice
`c ? a : b` is weaker than all of them and associates to the right. A **tree** says what was read;
parentheses leave no trace in it.

The reader descends recursively. Its fuel bounds the depth of the descent, and four steps for each
token are enough.

Texts in which all operands of operators are parenthesised are read in the same way whatever the
strengths are. So most facts below are stated for some strengths, and then for all at once.

## Main definitions

* `Tree`, `Strengths`, `expression`
* `readExpression`, the tree of a whole text

## Main results

* `IsOperand.infixed`, `IsOperation.choice`, `isOperand_call`: the trees of composed tokens.
* `readExpression_eq`: the tree of a text whose tokens are an expression.
-/

namespace Stimulus.Grammar

/-! ### Trees -/

/-- The operators in front of an operand. -/
inductive Prefix where
  | plus
  | minus
  | not
  | complement
  deriving DecidableEq, Repr

/-- The operators between two operands. -/
inductive Infix where
  | add
  | sub
  | mul
  | div
  | rem
  | power
  | shl
  | shr
  | bitAnd
  | bitOr
  | bitXor
  | and
  | or
  | lt
  | le
  | gt
  | ge
  | eq
  | ne
  deriving DecidableEq, Repr

/-- What is read from the text of an expression. -/
inductive Tree where
  | number (spelling : String)
  | name (name : String)
  /-- A string literal, with its escapes. -/
  | literal (content : String)
  /-- A bit of a bus. -/
  | element (array : String) (index : Tree)
  | call (function : String) (arguments : List Tree)
  | prefixed (op : Prefix) (operand : Tree)
  | infixed (op : Infix) (lhs rhs : Tree)
  | choice (condition yes no : Tree)

/-- An operator as a prefix. -/
def Operator.prefix? : Operator → Option Prefix
  | .plus => some .plus
  | .minus => some .minus
  | .not => some .not
  | .complement => some .complement
  | _ => none

/-- An operator as an infix. -/
def Operator.infix? : Operator → Option Infix
  | .plus => some .add
  | .minus => some .sub
  | .times => some .mul
  | .over => some .div
  | .rem => some .rem
  | .power => some .power
  | .shl => some .shl
  | .shr => some .shr
  | .bitAnd => some .bitAnd
  | .bitOr => some .bitOr
  | .bitXor => some .bitXor
  | .and => some .and
  | .or => some .or
  | .lt => some .lt
  | .le => some .le
  | .gt => some .gt
  | .ge => some .ge
  | .eq => some .eq
  | .ne => some .ne
  | .not => none
  | .complement => none

/-- The operator that is written for a prefix. -/
def Prefix.operator : Prefix → Operator
  | .plus => .plus
  | .minus => .minus
  | .not => .not
  | .complement => .complement

/-- The operator that is written for an infix. -/
def Infix.operator : Infix → Operator
  | .add => .plus
  | .sub => .minus
  | .mul => .times
  | .div => .over
  | .rem => .rem
  | .power => .power
  | .shl => .shl
  | .shr => .shr
  | .bitAnd => .bitAnd
  | .bitOr => .bitOr
  | .bitXor => .bitXor
  | .and => .and
  | .or => .or
  | .lt => .lt
  | .le => .le
  | .gt => .gt
  | .ge => .ge
  | .eq => .eq
  | .ne => .ne

/-- An operator that is written for a prefix is read as it. -/
@[simp] theorem Prefix.prefix?_operator (op : Prefix) : op.operator.prefix? = some op := by
  cases op <;> rfl

/-- An operator that is written for an infix is read as it. -/
@[simp] theorem Infix.infix?_operator (op : Infix) : op.operator.infix? = some op := by
  cases op <;> rfl

/-- How strongly each infix operator binds. -/
abbrev Strengths := Infix → Nat

/-- The strengths of the modelling language. -/
def Strengths.standard : Strengths
  | .power => 11
  | .mul | .div | .rem => 10
  | .add | .sub => 9
  | .shl | .shr => 8
  | .lt | .le | .gt | .ge => 7
  | .eq | .ne => 6
  | .bitAnd => 5
  | .bitXor => 4
  | .bitOr => 3
  | .and => 2
  | .or => 1

/-! ### Reading -/

variable (g : Strengths)

mutual

/-- Reads an expression. -/
def expression : Nat → List Token → Option (Tree × List Token)
  | 0, _ => none
  | n + 1, ts =>
    match operation n 0 ts with
    | none => none
    | some (c, .mark .question :: ts) =>
      match expression n ts with
      | some (yes, .mark .colon :: ts) =>
        (expression n ts).map fun (no, ts) => (.choice c yes no, ts)
      | _ => none
    | some (c, ts) => some (c, ts)

/-- Reads an operand and the infix operators after it that bind at least as strongly as `level`. -/
def operation : Nat → Nat → List Token → Option (Tree × List Token)
  | 0, _, _ => none
  | n + 1, level, ts =>
    match operand n ts with
    | none => none
    | some (lhs, ts) => operations n level lhs ts

/-- Goes on after a left operand. -/
def operations : Nat → Nat → Tree → List Token → Option (Tree × List Token)
  | 0, _, _, _ => none
  | n + 1, level, lhs, .operator o :: ts =>
    match o.infix? with
    | none => some (lhs, .operator o :: ts)
    | some op =>
      if level ≤ g op then
        match operation n (g op + 1) ts with
        | none => none
        | some (rhs, ts) => operations n level (.infixed op lhs rhs) ts
      else some (lhs, .operator o :: ts)
  | _ + 1, _, lhs, ts => some (lhs, ts)

/-- Reads an operand. -/
def operand : Nat → List Token → Option (Tree × List Token)
  | 0, _ => none
  | n + 1, .operator o :: ts =>
    match o.prefix? with
    | none => none
    | some op => (operand n ts).map fun (x, ts) => (.prefixed op x, ts)
  | n + 1, .mark .openParen :: ts =>
    match expression n ts with
    | some (x, .mark .closeParen :: ts) => some (x, ts)
    | _ => none
  | n + 1, .word f :: .mark .openParen :: ts =>
    (arguments n ts).map fun (xs, ts) => (.call f xs, ts)
  | n + 1, .word a :: .mark .openBracket :: ts =>
    match expression n ts with
    | some (i, .mark .closeBracket :: ts) => some (.element a i, ts)
    | _ => none
  | _ + 1, .word x :: ts => some (.name x, ts)
  | _ + 1, .number x :: ts => some (.number x, ts)
  | _ + 1, .literal x :: ts => some (.literal x, ts)
  | _ + 1, _ => none

/-- Reads the arguments of a call, up to the closing parenthesis. -/
def arguments : Nat → List Token → Option (List Tree × List Token)
  | 0, _ => none
  | _ + 1, .mark .closeParen :: ts => some ([], ts)
  | n + 1, ts => items n ts

/-- Reads at least one argument, up to the closing parenthesis. -/
def items : Nat → List Token → Option (List Tree × List Token)
  | 0, _ => none
  | n + 1, ts =>
    match expression n ts with
    | some (x, .mark .closeParen :: ts) => some ([x], ts)
    | some (x, .mark .comma :: ts) => (items n ts).map fun (xs, ts) => (x :: xs, ts)
    | _ => none

end

/-- Reads a whole text as one expression. -/
def readExpression (text : String) : Option Tree :=
  match lex text.toList with
  | none => none
  | some ts =>
    match expression g (4 * ts.length + 3) ts with
    | some (x, []) => some x
    | _ => none

/-! ### What may follow -/

/-- The tokens at which an expression ends. -/
def stops : List Token :=
  [.mark .closeParen, .mark .closeBracket, .mark .comma, .mark .colon, .mark .semicolon]

/-- What may follow an expression: nothing, or something that starts with a token at which
expressions end. -/
def Stops (rest : List Token) : Prop :=
  ∀ t ∈ rest.head?, t ∈ stops

/-- What may follow an operation: the end of an expression, or the question mark of a choice. -/
def Pauses (rest : List Token) : Prop :=
  ∀ t ∈ rest.head?, t ∈ Token.mark .question :: stops

/-- The end of an expression is the end of an operation. -/
theorem Stops.pauses {rest : List Token} (h : Stops rest) : Pauses rest :=
  fun t ht => List.mem_cons_of_mem _ (h t ht)

/-- An operation ends at the end of an expression and at a question mark. -/
theorem operations_of_pauses {g : Strengths} {n level : Nat} {x : Tree} {rest : List Token}
    (h : Pauses rest) : operations g (n + 1) level x rest = some (x, rest) := by
  cases rest with
  | nil => rfl
  | cons t rest =>
      have ht := h t rfl
      cases t with
      | operator o => simp [stops] at ht
      | _ => rfl

/-! ### Tokens and their trees -/

/-- Tokens that are read as an operand under some strengths, whatever follows them. -/
def IsOperandUnder (g : Strengths) (ts : List Token) (x : Tree) : Prop :=
  ∀ (n : Nat) (rest : List Token), 4 * ts.length ≤ n → operand g n (ts ++ rest) = some (x, rest)

/-- Tokens that are read as an operand, whatever follows them. -/
def IsOperand (ts : List Token) (x : Tree) : Prop :=
  ∀ g : Strengths, IsOperandUnder g ts x

/-- Tokens that are read as an operand, in front of what may follow an operation. -/
def IsTerm (ts : List Token) (x : Tree) : Prop :=
  ∀ (g : Strengths) (n : Nat) (rest : List Token), Pauses rest → 4 * ts.length ≤ n →
    operand g n (ts ++ rest) = some (x, rest)

/-- Tokens that are read as an operation under some strengths, in front of what may follow one. -/
def IsOperationUnder (g : Strengths) (ts : List Token) (x : Tree) : Prop :=
  ∀ (n : Nat) (rest : List Token), Pauses rest → 4 * ts.length + 2 ≤ n →
    operation g n 0 (ts ++ rest) = some (x, rest)

/-- Tokens that are read as an operation, in front of what may follow one. -/
def IsOperation (ts : List Token) (x : Tree) : Prop :=
  ∀ g : Strengths, IsOperationUnder g ts x

/-- Tokens that are read as an expression under some strengths, in front of what may follow one. -/
def IsExpressionUnder (g : Strengths) (ts : List Token) (x : Tree) : Prop :=
  ∀ (n : Nat) (rest : List Token), Stops rest → 4 * ts.length + 3 ≤ n →
    expression g n (ts ++ rest) = some (x, rest)

/-- Tokens that are read as an expression, in front of what may follow one. -/
def IsExpression (ts : List Token) (x : Tree) : Prop :=
  ∀ g : Strengths, IsExpressionUnder g ts x

variable {g} {ts us vs : List Token} {x y z : Tree}

/-- A positive fuel. -/
theorem exists_fuel {n : Nat} (h : 0 < n) : ∃ m, n = m + 1 :=
  Nat.exists_eq_add_one.mpr h

/-- A term is an operation. -/
theorem IsTerm.isOperation (h : IsTerm ts x) : IsOperation ts x := by
  intro g n rest hrest hn
  obtain ⟨n, rfl⟩ := exists_fuel (n := n) (by omega)
  obtain ⟨m, rfl⟩ := exists_fuel (n := n) (by omega)
  rw [operation, h g (m + 1) rest hrest (by omega)]
  exact operations_of_pauses hrest

/-- An operand is a term. -/
theorem IsOperand.isTerm (h : IsOperand ts x) : IsTerm ts x :=
  fun g n rest _ hn => h g n rest hn

/-- An operand is an operation. -/
theorem IsOperandUnder.isOperationUnder (h : IsOperandUnder g ts x) : IsOperationUnder g ts x := by
  intro n rest hrest hn
  obtain ⟨n, rfl⟩ := exists_fuel (n := n) (by omega)
  obtain ⟨m, rfl⟩ := exists_fuel (n := n) (by omega)
  rw [operation, h (m + 1) rest (by omega)]
  exact operations_of_pauses hrest

/-- An operand is an operation. -/
theorem IsOperand.isOperation (h : IsOperand ts x) : IsOperation ts x :=
  fun g => (h g).isOperationUnder

/-- An operation is an expression. -/
theorem IsOperationUnder.isExpressionUnder (h : IsOperationUnder g ts x) :
    IsExpressionUnder g ts x := by
  intro n rest hrest hn
  obtain ⟨n, rfl⟩ := exists_fuel (n := n) (by omega)
  rw [expression, h n rest hrest.pauses (by omega)]
  cases rest with
  | nil => rfl
  | cons t rest =>
      have ht := hrest t rfl
      simp only [stops, List.mem_cons, List.not_mem_nil, or_false] at ht
      rcases ht with rfl | rfl | rfl | rfl | rfl <;> rfl

/-- An operation is an expression. -/
theorem IsOperation.isExpression (h : IsOperation ts x) : IsExpression ts x :=
  fun g => (h g).isExpressionUnder

/-- A name is a term. It would be the beginning of a call in front of a parenthesis. -/
theorem isTerm_name (name : String) : IsTerm [.word name] (.name name) := by
  intro g n rest hrest hn
  rw [List.length_singleton] at hn
  obtain ⟨n, rfl⟩ := exists_fuel (n := n) (by omega)
  cases rest with
  | nil => rfl
  | cons t rest =>
      have ht := hrest t rfl
      simp only [stops, List.mem_cons, List.not_mem_nil, or_false] at ht
      rcases ht with rfl | rfl | rfl | rfl | rfl | rfl <;> rfl

/-- A prefix in front of a term makes a term. -/
theorem IsTerm.prefixed (op : Prefix) (h : IsTerm ts x) :
    IsTerm (.operator op.operator :: ts) (.prefixed op x) := by
  intro g n rest hrest hn
  rw [List.length_cons] at hn
  obtain ⟨n, rfl⟩ := exists_fuel (n := n) (by omega)
  rw [List.cons_append, operand, op.prefix?_operator]
  dsimp only
  rw [h g n rest hrest (by omega)]
  rfl

/-- A number is an operand. -/
theorem isOperand_number (spelling : String) : IsOperand [.number spelling] (.number spelling) := by
  intro g n rest hn
  rw [List.length_singleton] at hn
  obtain ⟨n, rfl⟩ := exists_fuel (n := n) (by omega)
  rfl

/-- A string literal is an operand. -/
theorem isOperand_literal (content : String) :
    IsOperand [.literal content] (.literal content) := by
  intro g n rest hn
  rw [List.length_singleton] at hn
  obtain ⟨n, rfl⟩ := exists_fuel (n := n) (by omega)
  rfl

/-- Tokens between parentheses. -/
def parenthesised (ts : List Token) : List Token :=
  .mark .openParen :: (ts ++ [.mark .closeParen])

/-- An expression between parentheses is an operand. -/
theorem IsExpressionUnder.parenthesised (h : IsExpressionUnder g ts x) :
    IsOperandUnder g (Grammar.parenthesised ts) x := by
  intro n rest hn
  simp only [Grammar.parenthesised, List.length_cons, List.length_append, List.length_nil] at hn
  obtain ⟨n, rfl⟩ := exists_fuel (n := n) (by omega)
  have hread := h n (.mark .closeParen :: rest) (by rintro t ⟨⟩; decide) (by omega)
  simp only [Grammar.parenthesised, List.cons_append, List.append_assoc, List.nil_append, operand,
    hread]

/-- An expression between parentheses is an operand. -/
theorem IsExpression.parenthesised (h : IsExpression ts x) :
    IsOperand (Grammar.parenthesised ts) x :=
  fun g => (h g).parenthesised

/-- A prefix in front of an operand makes an operand. -/
theorem IsOperandUnder.prefixed (op : Prefix) (h : IsOperandUnder g ts x) :
    IsOperandUnder g (.operator op.operator :: ts) (.prefixed op x) := by
  intro n rest hn
  rw [List.length_cons] at hn
  obtain ⟨n, rfl⟩ := exists_fuel (n := n) (by omega)
  rw [List.cons_append, operand, op.prefix?_operator]
  dsimp only
  rw [h n rest (by omega)]
  rfl

/-- A prefix in front of an operand makes an operand. -/
theorem IsOperand.prefixed (op : Prefix) (h : IsOperand ts x) :
    IsOperand (.operator op.operator :: ts) (.prefixed op x) :=
  fun g => (h g).prefixed op

/-- **An infix between two operands** makes an operation, whatever its strength is. -/
theorem IsOperandUnder.infixed (op : Infix) (hx : IsOperandUnder g ts x)
    (hy : IsOperandUnder g us y) :
    IsOperationUnder g (ts ++ .operator op.operator :: us) (.infixed op x y) := by
  intro n rest hrest hn
  rw [List.length_append, List.length_cons] at hn
  obtain ⟨m, rfl⟩ : ∃ m, n = m + 4 := ⟨n - 4, by omega⟩
  -- The right operand is followed by no operator, however low the level is at which it is read.
  have hright : operation g (m + 2) (g op + 1) (us ++ rest) = some (y, rest) := by
    rw [operation, hy (m + 1) rest (by omega)]
    exact operations_of_pauses hrest
  rw [List.append_assoc, List.cons_append, operation, hx (m + 3) _ (by omega)]
  dsimp only
  rw [operations, op.infix?_operator]
  dsimp only
  rw [if_pos (Nat.zero_le _), hright]
  exact operations_of_pauses hrest

/-- An infix between two operands makes an operation. -/
theorem IsOperand.infixed (op : Infix) (hx : IsOperand ts x) (hy : IsOperand us y) :
    IsOperation (ts ++ .operator op.operator :: us) (.infixed op x y) :=
  fun g => (hx g).infixed op (hy g)

/-- **A choice** between operands under a condition that is an operation. -/
theorem IsOperationUnder.choice (hc : IsOperationUnder g ts x) (hy : IsOperandUnder g us y)
    (hz : IsOperandUnder g vs z) :
    IsExpressionUnder g (ts ++ .mark .question :: (us ++ .mark .colon :: vs)) (.choice x y z) := by
  intro n rest hrest hn
  simp only [List.length_append, List.length_cons] at hn
  obtain ⟨n, rfl⟩ := exists_fuel (n := n) (by omega)
  have hcondition := hc n (.mark .question :: (us ++ .mark .colon :: (vs ++ rest)))
    (by rintro t ⟨⟩; decide) (by omega)
  have hyes := hy.isOperationUnder.isExpressionUnder n (.mark .colon :: (vs ++ rest))
    (by rintro t ⟨⟩; decide) (by omega)
  have hno := hz.isOperationUnder.isExpressionUnder n rest hrest (by omega)
  simp only [List.append_assoc, List.cons_append, expression, hcondition, hyes, hno,
    Option.map_some]

/-- A choice between operands under a condition that is an operation. -/
theorem IsOperation.choice (hc : IsOperation ts x) (hy : IsOperand us y) (hz : IsOperand vs z) :
    IsExpression (ts ++ .mark .question :: (us ++ .mark .colon :: vs)) (.choice x y z) :=
  fun g => (hc g).choice (hy g) (hz g)

/-! ### Calls and bits -/

/-- The tokens of arguments, with commas between them. -/
def separated : List (List Token) → List Token
  | [] => []
  | [ts] => ts
  | ts :: rest => ts ++ .mark .comma :: separated rest

/-- Expressions between commas are items. -/
theorem items_separated {tss : List (List Token)} {xs : List Tree}
    (h : List.Forall₂ (IsExpressionUnder g) tss xs) (hne : tss ≠ []) (n : Nat) (rest : List Token)
    (hn : 4 * (separated tss).length + 4 ≤ n) :
    items g n (separated tss ++ .mark .closeParen :: rest) = some (xs, rest) := by
  induction h generalizing n with
  | nil => exact absurd rfl hne
  | @cons ts x tss xs hx hrest ih =>
      obtain ⟨n, rfl⟩ := exists_fuel (n := n) (by omega)
      cases hrest with
      | nil =>
          have hread := hx n (.mark .closeParen :: rest) (by rintro t ⟨⟩; decide)
            (by simpa [separated] using hn)
          simp only [separated, items, hread]
      | @cons us y tss xs hy hrest =>
          simp only [separated, List.length_append, List.length_cons] at hn
          have hread := hx n
            (.mark .comma :: (separated (us :: tss) ++ .mark .closeParen :: rest))
            (by rintro t ⟨⟩; decide) (by omega)
          have hmore := ih (List.cons_ne_nil _ _) n (by omega)
          simp only [separated, List.append_assoc, List.cons_append, items, hread, hmore,
            Option.map_some]

variable (g) in
/-- What starts no operand starts no expression. -/
theorem expression_eq_none {t : Token} (ht : ∀ n ts, operand g n (t :: ts) = none) (n : Nat)
    (ts : List Token) : expression g n (t :: ts) = none := by
  cases n with
  | zero => rfl
  | succ n =>
      cases n with
      | zero => rfl
      | succ n => rw [expression, operation, ht]

variable (g) in
/-- An expression starts with no closing parenthesis. -/
theorem expression_closeParen (n : Nat) (ts : List Token) :
    expression g n (.mark .closeParen :: ts) = none :=
  expression_eq_none g (fun n _ => by cases n <;> rfl) n ts

variable (g) in
/-- An expression starts with no reserved word. -/
theorem expression_keyword (k : Keyword) (n : Nat) (ts : List Token) :
    expression g n (.keyword k :: ts) = none :=
  expression_eq_none g (fun n _ => by cases n <;> rfl) n ts

/-- Arguments that start with an expression are items. -/
theorem arguments_eq_items (h : IsExpressionUnder g ts x) (n : Nat) {rest : List Token}
    (hrest : Stops rest) : arguments g (n + 1) (ts ++ rest) = items g n (ts ++ rest) := by
  have hread := h (4 * ts.length + 3) rest hrest le_rfl
  cases hts : ts ++ rest with
  | nil => rfl
  | cons t us =>
      by_cases ht : t = .mark .closeParen
      · rw [hts, ht, expression_closeParen] at hread
        cases hread
      · cases t with
        | mark m =>
            cases m with
            | closeParen => exact absurd rfl ht
            | _ => rfl
        | _ => rfl

/-- **A call** is an operand. -/
theorem isOperandUnder_call {tss : List (List Token)} {xs : List Tree} (f : String)
    (h : List.Forall₂ (IsExpressionUnder g) tss xs) :
    IsOperandUnder g (.word f :: parenthesised (separated tss)) (.call f xs) := by
  intro n rest hn
  simp only [parenthesised, List.length_cons, List.length_append, List.length_nil] at hn
  obtain ⟨n, rfl⟩ : ∃ m, n = m + 2 := ⟨n - 2, by omega⟩
  have hread : arguments g (n + 1) (separated tss ++ .mark .closeParen :: rest)
      = some (xs, rest) := by
    cases h with
    | nil => rfl
    | @cons ts x tss xs hx hrest =>
        have hitems := items_separated (.cons hx hrest) (List.cons_ne_nil _ _) n rest (by omega)
        cases hrest with
        | nil => rwa [separated, arguments_eq_items hx n (by rintro t ⟨⟩; decide)]
        | cons _ _ =>
            rw [separated, List.append_assoc, List.cons_append] at hitems ⊢
            · rwa [arguments_eq_items hx n (by rintro t ⟨⟩; decide)]
            all_goals exact List.cons_ne_nil _ _
  simp only [parenthesised, List.cons_append, List.append_assoc, List.nil_append, operand, hread,
    Option.map_some]

/-- A call is an operand. -/
theorem isOperand_call {tss : List (List Token)} {xs : List Tree} (f : String)
    (h : List.Forall₂ IsExpression tss xs) :
    IsOperand (.word f :: parenthesised (separated tss)) (.call f xs) :=
  fun g => isOperandUnder_call f (h.imp fun _ _ hx => hx g)

/-- A bit of a bus is an operand. -/
theorem isOperand_element (array index : String) :
    IsOperand [.word array, .mark .openBracket, .number index, .mark .closeBracket]
      (.element array (.number index)) := by
  intro g n rest hn
  simp only [List.length_cons, List.length_nil] at hn
  obtain ⟨n, rfl⟩ := exists_fuel (n := n) (by omega)
  have hread := (isOperand_number index).isOperation.isExpression g n
    (.mark .closeBracket :: rest) (by rintro t ⟨⟩; decide) (by simp; omega)
  simp only [List.cons_append, List.nil_append] at hread ⊢
  rw [operand, hread]

/-- **A text whose tokens are an expression** is read as its tree. -/
theorem readExpression_eq {text : String} (hlex : Lexes text ts) (h : IsExpressionUnder g ts x) :
    readExpression g text = some x := by
  have hread := h (4 * ts.length + 3) [] (fun t ht => by cases ht) le_rfl
  rw [List.append_nil] at hread
  rw [readExpression, hlex.lex_eq]
  dsimp only
  rw [hread]

end Stimulus.Grammar
