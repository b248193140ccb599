import Stimulus.Proofs.Grammar.Expression

/-!
# Steps of the reader of expressions

Each of the readers of which the reader of expressions is made looks at the first tokens, or calls
others with less fuel and looks at the first token that they leave. What it can do in one such step
is said here once. It is all that is needed of the readers where something holds of all of them by
induction on the fuel.

## Main definitions

* `ExpressionStep`, `OperationsStep`, `OperandStep`, `ItemsStep`
* `Halts`, `Detached`: where the reader of operations and that of a name stop

## Main results

* `expression_iff`, `operation_iff`, `operations_iff`, `operand_iff`, `arguments_iff`, `items_iff`:
  a reader with fuel succeeds in such a step and in no other way.
-/

namespace Stimulus.Grammar

variable {g : Strengths} {n level : Nat} {ts left : List Token} {x lhs : Tree} {xs : List Tree}

/-- What does not start with an infix that binds at least as strongly as a level. -/
def Halts (g : Strengths) (level : Nat) (rest : List Token) : Prop :=
  ∀ o op, rest.head? = some (.operator o) → o.infix? = some op → g op < level

/-- What starts neither with a parenthesis nor with a bracket that would belong to a name in front
of it. -/
def Detached (rest : List Token) : Prop :=
  rest.head? ≠ some (.mark .openParen) ∧ rest.head? ≠ some (.mark .openBracket)

/-- How an expression is read: as an operation, and then as a choice behind a question mark. -/
inductive ExpressionStep (g : Strengths) (n : Nat) (ts : List Token) : Tree → List Token → Prop
  | operation {x : Tree} {left : List Token} (h : operation g n 0 ts = some (x, left))
      (hleft : left.head? ≠ some (.mark .question)) : ExpressionStep g n ts x left
  | choice {c yes no : Tree} {us vs left : List Token}
      (hc : Grammar.operation g n 0 ts = some (c, .mark .question :: us))
      (hyes : expression g n us = some (yes, .mark .colon :: vs))
      (hno : expression g n vs = some (no, left)) : ExpressionStep g n ts (.choice c yes no) left

/-- How an operation goes on behind a left operand: not at all, or with an infix that is strong
enough. -/
inductive OperationsStep (g : Strengths) (n level : Nat) (lhs : Tree) :
    List Token → Tree → List Token → Prop
  | done {ts : List Token} (h : Halts g level ts) : OperationsStep g n level lhs ts lhs ts
  | more {o : Operator} {op : Infix} {us vs left : List Token} {rhs x : Tree}
      (hop : o.infix? = some op) (hlevel : level ≤ g op)
      (hright : operation g n (g op + 1) us = some (rhs, vs))
      (hmore : operations g n level (.infixed op lhs rhs) vs = some (x, left)) :
      OperationsStep g n level lhs (.operator o :: us) x left

/-- How an operand is read. -/
inductive OperandStep (g : Strengths) (n : Nat) : List Token → Tree → List Token → Prop
  | prefixed {o : Operator} {op : Prefix} {us left : List Token} {x : Tree}
      (hop : o.prefix? = some op) (h : operand g n us = some (x, left)) :
      OperandStep g n (.operator o :: us) (.prefixed op x) left
  | parens {us left : List Token} {x : Tree}
      (h : expression g n us = some (x, .mark .closeParen :: left)) :
      OperandStep g n (.mark .openParen :: us) x left
  | call {f : String} {us left : List Token} {xs : List Tree}
      (h : arguments g n us = some (xs, left)) :
      OperandStep g n (.word f :: .mark .openParen :: us) (.call f xs) left
  | element {a : String} {us left : List Token} {i : Tree}
      (h : expression g n us = some (i, .mark .closeBracket :: left)) :
      OperandStep g n (.word a :: .mark .openBracket :: us) (.element a i) left
  | name {w : String} {left : List Token} (h : Detached left) :
      OperandStep g n (.word w :: left) (.name w) left
  | number {w : String} {left : List Token} : OperandStep g n (.number w :: left) (.number w) left
  | literal {w : String} {left : List Token} :
      OperandStep g n (.literal w :: left) (.literal w) left

/-- How items are read: up to a closing parenthesis or to a comma. -/
inductive ItemsStep (g : Strengths) (n : Nat) (ts : List Token) : List Tree → List Token → Prop
  | last {x : Tree} {left : List Token}
      (h : expression g n ts = some (x, .mark .closeParen :: left)) : ItemsStep g n ts [x] left
  | more {x : Tree} {xs : List Tree} {us left : List Token}
      (h : expression g n ts = some (x, .mark .comma :: us))
      (hmore : items g n us = some (xs, left)) : ItemsStep g n ts (x :: xs) left

/-- An expression is read in such a step. -/
theorem expression_iff :
    expression g (n + 1) ts = some (x, left) ↔ ExpressionStep g n ts x left := by
  rw [expression]
  constructor
  · intro h
    split at h
    · cases h
    next c us hc =>
        split at h
        next yes vs hyes =>
            obtain ⟨⟨no, left'⟩, hno, heq⟩ := Option.map_eq_some_iff.mp h
            cases heq
            exact .choice hc hyes hno
        next => cases h
    next c us hus hc =>
        cases h
        refine .operation hc fun hhead => ?_
        obtain ⟨vs, rfl⟩ := List.head?_eq_some_iff.mp hhead
        exact hus vs rfl
  · rintro (⟨h, hleft⟩ | ⟨hc, hyes, hno⟩)
    · rw [h]
      split
      next heq => cases heq
      next heq =>
          cases heq
          exact absurd rfl hleft
      next heq =>
          cases heq
          rfl
    · simp only [hc, hyes, hno, Option.map_some]

/-- An operation is an operand with what follows it. -/
theorem operation_iff : operation g (n + 1) level ts = some (x, left) ↔
    ∃ lhs us, operand g n ts = some (lhs, us) ∧
      operations g n level lhs us = some (x, left) := by
  rw [operation]
  cases operand g n ts with
  | none => simp
  | some r => simp [Prod.ext_iff, and_assoc]

/-- An operation goes on in such a step. -/
theorem operations_iff :
    operations g (n + 1) level lhs ts = some (x, left) ↔
      OperationsStep g n level lhs ts x left := by
  constructor
  · intro h
    rw [operations.eq_def] at h
    split at h
    next => cases ‹n + 1 = 0›
    next m o us heq =>
        cases heq
        split at h
        next hop =>
            cases h
            refine .done fun o' op hhead hop' => ?_
            cases hhead
            rw [hop] at hop'
            cases hop'
        next op hop =>
            split at h
            next hlevel =>
                split at h
                · cases h
                next rhs vs hright => exact .more hop hlevel hright h
            next hlevel =>
                cases h
                refine .done fun o' op' hhead hop' => ?_
                cases hhead
                rw [hop] at hop'
                cases hop'
                exact Nat.lt_of_not_le hlevel
    next hts =>
        cases h
        refine .done fun o op hhead _ => ?_
        obtain ⟨us, rfl⟩ := List.head?_eq_some_iff.mp hhead
        exact absurd rfl (hts o us)
  · rintro (h | ⟨hop, hlevel, hright, hmore⟩)
    · cases ts with
      | nil => rfl
      | cons t us =>
          cases t with
          | operator o =>
              rw [operations]
              cases hop : o.infix? with
              | none => rfl
              | some op => exact if_neg (Nat.not_le.mpr (h o op rfl hop))
          | _ => rfl
    · rw [operations, hop]
      simp only [if_pos hlevel, hright, hmore]

/-- An operand is read in such a step. -/
theorem operand_iff : operand g (n + 1) ts = some (x, left) ↔ OperandStep g n ts x left := by
  constructor
  · intro h
    rw [operand.eq_def] at h
    split at h
    next => cases ‹n + 1 = 0›
    next m o us heq =>
        cases heq
        split at h
        · cases h
        next op hop =>
            obtain ⟨⟨y, left'⟩, hy, heq⟩ := Option.map_eq_some_iff.mp h
            cases heq
            exact .prefixed hop hy
    next m us heq =>
        cases heq
        split at h
        next hy =>
            cases h
            exact .parens hy
        next => cases h
    next m f us heq =>
        cases heq
        obtain ⟨⟨xs, left'⟩, hxs, heq⟩ := Option.map_eq_some_iff.mp h
        cases heq
        exact .call hxs
    next m a us heq =>
        cases heq
        split at h
        next hi =>
            cases h
            exact .element hi
        next => cases h
    next m w us hparen hbracket heq =>
        cases heq
        cases h
        refine .name ⟨fun hhead => ?_, fun hhead => ?_⟩
        · obtain ⟨vs, rfl⟩ := List.head?_eq_some_iff.mp hhead
          exact hparen vs rfl
        · obtain ⟨vs, rfl⟩ := List.head?_eq_some_iff.mp hhead
          exact hbracket vs rfl
    next =>
        cases h
        exact .number
    next =>
        cases h
        exact .literal
    next => cases h
  · rintro (⟨hop, h⟩ | h | h | h | h | _ | _)
    · rw [operand, hop]
      simp only [h, Option.map_some]
    · rw [operand, h]
    · rw [operand, h]
      rfl
    · rw [operand, h]
    · cases left with
      | nil => rfl
      | cons t us =>
          cases t with
          | mark m =>
              cases m with
              | openParen => exact absurd rfl h.1
              | openBracket => exact absurd rfl h.2
              | _ => rfl
          | _ => rfl
    · rfl
    · rfl

/-- Items are read in such a step. -/
theorem items_iff : items g (n + 1) ts = some (xs, left) ↔ ItemsStep g n ts xs left := by
  constructor
  · intro h
    rw [items] at h
    split at h
    next hx =>
        cases h
        exact .last hx
    next hx =>
        obtain ⟨⟨ys, left'⟩, hmore, heq⟩ := Option.map_eq_some_iff.mp h
        cases heq
        exact .more hx hmore
    next => cases h
  · rintro (h | ⟨h, hmore⟩)
    · rw [items, h]
    · simp only [items, h, hmore, Option.map_some]

/-- Arguments are items, unless there are none. -/
theorem arguments_iff : arguments g (n + 1) ts = some (xs, left) ↔
    (ts = .mark .closeParen :: left ∧ xs = []) ∨
      (ts.head? ≠ some (.mark .closeParen) ∧ items g n ts = some (xs, left)) := by
  constructor
  · intro h
    rw [arguments.eq_def] at h
    split at h
    next => cases ‹n + 1 = 0›
    next =>
        cases h
        exact .inl ⟨rfl, rfl⟩
    next m hm hts =>
        cases hm
        refine .inr ⟨fun hhead => ?_, h⟩
        obtain ⟨us, rfl⟩ := List.head?_eq_some_iff.mp hhead
        exact hts us rfl
  · rintro (⟨rfl, rfl⟩ | ⟨hhead, h⟩)
    · rfl
    · rw [arguments.eq_def]
      split
      next => cases ‹n + 1 = 0›
      next => exact absurd rfl hhead
      next hm _ =>
          cases hm
          exact h

end Stimulus.Grammar
