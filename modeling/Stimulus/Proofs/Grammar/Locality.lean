import Stimulus.Proofs.Grammar.Step

/-!
# What the reader looks at

The reader of expressions takes tokens from the front. Among the tokens that it takes all
parentheses and brackets are matched, and of the tokens that it leaves it looks at the first one
only. So what it reads from a text that it takes as a whole is also read in front of anything with
which it would not go on. Both hold of all readers of which it is made, by induction on the fuel.

How far an operand of a difference is read depends on its **outermost** tokens, those outside all
parentheses and brackets. If there is no question mark among them, and no infix that is weaker than
a level, then the operand is read up to its end before a weaker operator behind it is.

## Main definitions

* `Matched`, `outermost`
* `Binds`: tokens that hold together in front of weaker operators

## Main results

* `takesMatched`: the readers take matched tokens.
* `readsLocally`: the readers look at the first token only that they leave.
* `binds_of_expression`: expressions that hold together.
* `Binds.difference`: the difference of two of them is read as one.
-/

namespace Stimulus.Grammar

variable {g : Strengths} {n level : Nat} {ts us left rest : List Token} {x y lhs : Tree}

/-! ### Matched tokens -/

/-- Opening parentheses and brackets. -/
def Token.isOpening (t : Token) : Bool :=
  t == .mark .openParen || t == .mark .openBracket

/-- Closing parentheses and brackets. -/
def Token.isClosing (t : Token) : Bool :=
  t == .mark .closeParen || t == .mark .closeBracket

/-- Tokens among which all parentheses and brackets are matched. -/
inductive Matched : List Token → Prop
  | nil : Matched []
  | single {t : Token} {ts : List Token} (hopening : t.isOpening = false)
      (hclosing : t.isClosing = false) (h : Matched ts) : Matched (t :: ts)
  | parens {inner ts : List Token} (hinner : Matched inner) (h : Matched ts) :
      Matched (.mark .openParen :: (inner ++ .mark .closeParen :: ts))
  | brackets {inner ts : List Token} (hinner : Matched inner) (h : Matched ts) :
      Matched (.mark .openBracket :: (inner ++ .mark .closeBracket :: ts))

/-- The tokens outside all parentheses and brackets, from a point at some depth. -/
def outermost (depth : Nat) : List Token → List Token
  | [] => []
  | t :: ts =>
    if t.isOpening then outermost (depth + 1) ts
    else if t.isClosing then outermost (depth - 1) ts
    else if depth = 0 then t :: outermost depth ts
    else outermost depth ts

/-- A token that opens and closes nothing in front of others. -/
theorem mem_outermost_cons {t u : Token} (hopening : u.isOpening = false)
    (hclosing : u.isClosing = false) {depth : Nat} (h : t ∈ outermost depth (u :: us)) :
    (depth = 0 ∧ t = u) ∨ t ∈ outermost depth us := by
  rw [outermost, if_neg (by simp [hopening]), if_neg (by simp [hclosing])] at h
  split at h
  next hdepth => exact (List.mem_cons.mp h).imp_left fun ht => ⟨hdepth, ht⟩
  next => exact .inr h

/-- Matched tokens are joined to matched tokens. -/
theorem Matched.append (hts : Matched ts) (hus : Matched us) : Matched (ts ++ us) := by
  induction hts with
  | nil => exact hus
  | single hopening hclosing _ ih => exact .single hopening hclosing ih
  | parens hinner _ _ ih =>
      rw [List.cons_append, List.append_assoc]
      exact .parens hinner ih
  | brackets hinner _ _ ih =>
      rw [List.cons_append, List.append_assoc]
      exact .brackets hinner ih

/-- **What is outermost behind matched tokens** is outermost, whatever the depth is. -/
theorem Matched.outermost_suffix (h : Matched ts) (depth : Nat) (rest : List Token) :
    outermost depth rest <:+ outermost depth (ts ++ rest) := by
  induction h generalizing depth rest with
  | nil => exact List.suffix_rfl
  | @single t ts hopening hclosing _ ih =>
      rw [List.cons_append, outermost, if_neg (by simp [hopening]), if_neg (by simp [hclosing])]
      split
      · exact (ih depth rest).trans (List.suffix_cons t _)
      · exact ih depth rest
  | @parens inner ts _ _ ihinner ih =>
      rw [List.cons_append, List.append_assoc]
      exact (ih depth rest).trans (ihinner (depth + 1) (.mark .closeParen :: (ts ++ rest)))
  | @brackets inner ts _ _ ihinner ih =>
      rw [List.cons_append, List.append_assoc]
      exact (ih depth rest).trans (ihinner (depth + 1) (.mark .closeBracket :: (ts ++ rest)))

/-- Matched tokens in front of what is left. -/
def Takes (ts left : List Token) : Prop :=
  ∃ front, Matched front ∧ ts = front ++ left

namespace Takes

variable {ts us left : List Token}

/-- No token. -/
theorem refl (ts : List Token) : Takes ts ts :=
  ⟨[], .nil, rfl⟩

/-- Some tokens and then more of them. -/
theorem trans (h : Takes ts us) (h' : Takes us left) : Takes ts left := by
  obtain ⟨front, hfront, rfl⟩ := h
  obtain ⟨back, hback, rfl⟩ := h'
  exact ⟨front ++ back, hfront.append hback, (List.append_assoc _ _ _).symm⟩

/-- One more token in front. -/
theorem cons {t : Token} (hopening : t.isOpening = false) (hclosing : t.isClosing = false)
    (h : Takes ts left) : Takes (t :: ts) left := by
  obtain ⟨front, hfront, rfl⟩ := h
  exact ⟨t :: front, .single hopening hclosing hfront, rfl⟩

/-- Parentheses. -/
theorem parens (h : Takes ts (.mark .closeParen :: left)) :
    Takes (.mark .openParen :: ts) left := by
  obtain ⟨front, hfront, rfl⟩ := h
  exact ⟨_, .parens hfront .nil, by simp⟩

/-- Brackets. -/
theorem brackets (h : Takes ts (.mark .closeBracket :: left)) :
    Takes (.mark .openBracket :: ts) left := by
  obtain ⟨front, hfront, rfl⟩ := h
  exact ⟨_, .brackets hfront .nil, by simp⟩

/-- Nothing is taken from nothing. -/
theorem eq_nil (h : Takes [] left) : left = [] := by
  obtain ⟨front, -, heq⟩ := h
  exact (List.append_eq_nil_iff.mp heq.symm).2

/-- What is outermost in the tokens that are left is outermost. -/
theorem outermost_suffix (h : Takes ts left) : outermost 0 left <:+ outermost 0 ts := by
  obtain ⟨front, hfront, rfl⟩ := h
  exact hfront.outermost_suffix 0 left

end Takes

/-- What the readers take. The parenthesis that closes arguments is not counted among them. -/
structure TakesMatched (g : Strengths) (n : Nat) : Prop where
  expression {ts left : List Token} {x : Tree} (h : expression g n ts = some (x, left)) :
    Takes ts left
  operation {level : Nat} {ts left : List Token} {x : Tree}
    (h : operation g n level ts = some (x, left)) : Takes ts left
  operations {level : Nat} {lhs x : Tree} {ts left : List Token}
    (h : operations g n level lhs ts = some (x, left)) : Takes ts left
  operand {ts left : List Token} {x : Tree} (h : operand g n ts = some (x, left)) : Takes ts left
  arguments {ts left : List Token} {xs : List Tree} (h : arguments g n ts = some (xs, left)) :
    Takes ts (.mark .closeParen :: left)
  items {ts left : List Token} {xs : List Tree} (h : items g n ts = some (xs, left)) :
    Takes ts (.mark .closeParen :: left)

/-- **The readers take matched tokens.** -/
theorem takesMatched (g : Strengths) (n : Nat) : TakesMatched g n := by
  induction n with
  | zero => exact ⟨nofun, nofun, nofun, nofun, nofun, nofun⟩
  | succ n ih =>
      constructor
      case expression =>
          intro ts left x h
          cases expression_iff.mp h with
          | operation h _ => exact ih.operation h
          | choice hc hyes hno =>
              have hcondition := (ih.operation hc).trans (.cons rfl rfl (ih.expression hyes))
              exact hcondition.trans (.cons rfl rfl (ih.expression hno))
      case operation =>
          intro level ts left x h
          obtain ⟨lhs, us, hlhs, hmore⟩ := operation_iff.mp h
          exact (ih.operand hlhs).trans (ih.operations hmore)
      case operations =>
          intro level lhs x ts left h
          cases operations_iff.mp h with
          | done _ => exact .refl ts
          | more _ _ hright hmore =>
              exact .cons rfl rfl ((ih.operation hright).trans (ih.operations hmore))
      case operand =>
          intro ts left x h
          cases operand_iff.mp h with
          | prefixed _ h => exact .cons rfl rfl (ih.operand h)
          | parens h => exact .parens (ih.expression h)
          | call h => exact .cons rfl rfl (.parens (ih.arguments h))
          | element h => exact .cons rfl rfl (.brackets (ih.expression h))
          | name _ => exact .cons rfl rfl (.refl left)
          | number => exact .cons rfl rfl (.refl left)
          | literal => exact .cons rfl rfl (.refl left)
      case arguments =>
          intro ts left xs h
          rcases arguments_iff.mp h with ⟨rfl, -⟩ | ⟨-, h⟩
          · exact .refl _
          · exact ih.items h
      case items =>
          intro ts left xs h
          cases items_iff.mp h with
          | last hx => exact ih.expression hx
          | more hx hmore => exact (ih.expression hx).trans (.cons rfl rfl (ih.items hmore))

/-! ### More tokens behind -/

/-- Where an operation at a level ends. -/
structure Ends (g : Strengths) (level : Nat) (rest : List Token) : Prop where
  halts : Halts g level rest
  detached : Detached rest

/-- It ends at a lower level if it ends at a higher one. -/
theorem Ends.mono {level' : Nat} (h : Ends g level rest) (hlevel : level ≤ level') :
    Ends g level' rest :=
  ⟨fun o op hhead hop => (h.halts o op hhead hop).trans_le hlevel, h.detached⟩

/-- Where an operation ends in the text of an expression, it ends at every level. -/
theorem Pauses.ends (h : Pauses rest) (g : Strengths) (level : Nat) : Ends g level rest := by
  refine ⟨fun o op hhead _ => ?_, fun hhead => ?_, fun hhead => ?_⟩
  · exact absurd (h _ hhead) (by simp [stops])
  · exact absurd (h _ hhead) (by decide)
  · exact absurd (h _ hhead) (by decide)

/-- More tokens behind those that were read, and more fuel. -/
structure ReadsLocally (g : Strengths) (n : Nat) : Prop where
  expression {ts left rest : List Token} {x : Tree} (k : Nat)
    (h : expression g n ts = some (x, left)) (hrest : left = [] → Stops rest) :
    expression g (n + k) (ts ++ rest) = some (x, left ++ rest)
  operation {level : Nat} {ts left rest : List Token} {x : Tree} (k : Nat)
    (h : operation g n level ts = some (x, left)) (hrest : left = [] → Ends g level rest) :
    operation g (n + k) level (ts ++ rest) = some (x, left ++ rest)
  operations {level : Nat} {lhs x : Tree} {ts left rest : List Token} (k : Nat)
    (h : operations g n level lhs ts = some (x, left)) (hrest : left = [] → Ends g level rest) :
    operations g (n + k) level lhs (ts ++ rest) = some (x, left ++ rest)
  operand {ts left rest : List Token} {x : Tree} (k : Nat)
    (h : operand g n ts = some (x, left)) (hrest : left = [] → Detached rest) :
    operand g (n + k) (ts ++ rest) = some (x, left ++ rest)
  arguments {ts left : List Token} {xs : List Tree} (k : Nat) (rest : List Token)
    (h : arguments g n ts = some (xs, left)) :
    arguments g (n + k) (ts ++ rest) = some (xs, left ++ rest)
  items {ts left : List Token} {xs : List Tree} (k : Nat) (rest : List Token)
    (h : items g n ts = some (xs, left)) :
    items g (n + k) (ts ++ rest) = some (xs, left ++ rest)

/-- The first token that is left is the same with more tokens behind. -/
theorem head?_append_ne {t : Token} (h : left.head? ≠ some t)
    (hrest : left = [] → rest.head? ≠ some t) : (left ++ rest).head? ≠ some t := by
  cases left with
  | nil => exact hrest rfl
  | cons u left => exact h

/-- What comes to a halt there does so with more tokens behind. -/
theorem Halts.append (h : Halts g level left) (hrest : left = [] → Halts g level rest) :
    Halts g level (left ++ rest) := by
  cases left with
  | nil => exact hrest rfl
  | cons u left => exact h

/-- A name in front stays apart from what is left, and from more tokens behind. -/
theorem Detached.append (h : Detached left) (hrest : left = [] → Detached rest) :
    Detached (left ++ rest) :=
  ⟨head?_append_ne h.1 fun hnil => (hrest hnil).1, head?_append_ne h.2 fun hnil => (hrest hnil).2⟩

/-- **The readers look at the first token only that they leave.** -/
theorem readsLocally (g : Strengths) (n : Nat) : ReadsLocally g n := by
  induction n with
  | zero => exact ⟨nofun, nofun, nofun, nofun, nofun, nofun⟩
  | succ n ih =>
      have hfuel (k : Nat) : n + 1 + k = n + k + 1 := Nat.add_right_comm n 1 k
      constructor
      case expression =>
          intro ts left rest x k h hrest
          rw [hfuel, expression_iff]
          cases expression_iff.mp h with
          | operation h hleft =>
              refine .operation (ih.operation k h fun hnil => (hrest hnil).pauses.ends g 0) ?_
              exact head?_append_ne hleft fun hnil hhead => absurd (hrest hnil _ hhead) (by decide)
          | choice hc hyes hno =>
              exact .choice (ih.operation k hc nofun) (ih.expression k hyes nofun)
                (ih.expression k hno hrest)
      case operation =>
          intro level ts left rest x k h hrest
          obtain ⟨lhs, us, hlhs, hmore⟩ := operation_iff.mp h
          have hus : us = [] → left = [] := by
            rintro rfl
            exact ((takesMatched g n).operations hmore).eq_nil
          rw [hfuel, operation_iff]
          exact ⟨lhs, us ++ rest, ih.operand k hlhs fun hnil => (hrest (hus hnil)).detached,
            ih.operations k hmore hrest⟩
      case operations =>
          intro level lhs x ts left rest k h hrest
          rw [hfuel, operations_iff]
          cases operations_iff.mp h with
          | done hhalts => exact .done (hhalts.append fun hnil => (hrest hnil).halts)
          | @more o op us vs _ rhs _ hop hlevel hright hmore =>
              have hvs : vs = [] → Ends g (g op + 1) rest := by
                rintro rfl
                have hnil := ((takesMatched g n).operations hmore).eq_nil
                exact (hrest hnil).mono (hlevel.trans (Nat.le_succ _))
              exact .more hop hlevel (ih.operation k hright hvs) (ih.operations k hmore hrest)
      case operand =>
          intro ts left rest x k h hrest
          rw [hfuel, operand_iff]
          cases operand_iff.mp h with
          | prefixed hop h => exact .prefixed hop (ih.operand k h hrest)
          | parens h => exact .parens (ih.expression k h nofun)
          | call h => exact .call (ih.arguments k rest h)
          | element h => exact .element (ih.expression k h nofun)
          | name hdetached => exact .name (hdetached.append hrest)
          | number => exact .number
          | literal => exact .literal
      case arguments =>
          intro ts left xs k rest h
          rw [hfuel, arguments_iff]
          rcases arguments_iff.mp h with ⟨rfl, rfl⟩ | ⟨hhead, h⟩
          · exact .inl ⟨rfl, rfl⟩
          · refine .inr ⟨head?_append_ne hhead ?_, ih.items k rest h⟩
            rintro rfl
            cases ((takesMatched g n).items h).eq_nil
      case items =>
          intro ts left xs k rest h
          rw [hfuel, items_iff]
          cases items_iff.mp h with
          | last hx => exact .last (ih.expression k hx nofun)
          | more hx hmore => exact .more (ih.expression k hx nofun) (ih.items k rest hmore)

/-- **Tokens that are read as a whole** are an expression. -/
theorem isExpressionUnder_iff :
    IsExpressionUnder g ts x ↔ expression g (4 * ts.length + 3) ts = some (x, []) := by
  constructor
  · intro h
    simpa using h _ [] (fun t ht => by cases ht) le_rfl
  · intro h n rest hrest hn
    obtain ⟨k, rfl⟩ := Nat.exists_eq_add_of_le hn
    exact (readsLocally g _).expression k h fun _ => hrest

/-- **A text that is read as a tree** is one whose tokens are an expression. -/
theorem readExpression_iff {text : String} :
    readExpression g text = some x ↔ ∃ ts, Lexes text ts ∧ IsExpressionUnder g ts x := by
  constructor
  · intro h
    rw [readExpression] at h
    split at h
    · cases h
    next ts hlex =>
        refine ⟨ts, lexes_iff.mpr hlex, isExpressionUnder_iff.mpr ?_⟩
        split at h
        next hread =>
            cases h
            exact hread
        next => cases h
  · rintro ⟨ts, hlexes, hx⟩
    exact readExpression_eq hlexes hx

/-! ### Tokens that hold together -/

/-- Tokens that are read at a level, or at a lower one, before anything behind them is, unless it
binds more strongly than the level. -/
def Binds (g : Strengths) (level : Nat) (ts : List Token) (x : Tree) : Prop :=
  ∃ m, ∀ k lower rest, lower ≤ level → Ends g (level + 1) rest →
    operation g (4 * ts.length + 2 + k) lower (ts ++ rest) = operations g (m + k + 1) lower x rest

/-- What is read as an operand as a whole holds together at every level. -/
theorem binds_of_operand (h : operand g (4 * ts.length) ts = some (x, [])) (level : Nat) :
    Binds g level ts x := by
  refine ⟨4 * ts.length, fun k lower rest _ hrest => ?_⟩
  have hread := (readsLocally g _).operand (k + 1) h fun _ => hrest.detached
  have hfuel : 4 * ts.length + 2 + k = 4 * ts.length + (k + 1) + 1 := by omega
  rw [hfuel, operation, hread]
  rfl

/-- An operand holds together at every level. -/
theorem IsOperandUnder.binds (h : IsOperandUnder g ts x) (level : Nat) : Binds g level ts x := by
  have hread := h (4 * ts.length) [] le_rfl
  rw [List.append_nil] at hread
  exact binds_of_operand hread level

/-- A term holds together at every level. -/
theorem IsTerm.binds (h : IsTerm ts x) (g : Strengths) (level : Nat) : Binds g level ts x := by
  have hread := h g (4 * ts.length) [] nofun le_rfl
  rw [List.append_nil] at hread
  exact binds_of_operand hread level

/-- What holds together is an operation. -/
theorem Binds.isOperationUnder (h : Binds g level ts x) : IsOperationUnder g ts x := by
  obtain ⟨m, hm⟩ := h
  intro n rest hrest hn
  obtain ⟨k, rfl⟩ := Nat.exists_eq_add_of_le hn
  rw [hm k 0 rest (Nat.zero_le _) (hrest.ends g _)]
  exact operations_of_pauses hrest

/-- Behind a left operand the tokens are read before anything that does not bind more strongly than
a level, if all outermost infixes among them bind at least as strongly as the level. -/
theorem operations_append (h : operations g n 0 lhs ts = some (x, []))
    (houter : ∀ o op, .operator o ∈ outermost 0 ts → o.infix? = some op → level ≤ g op) :
    ∃ m, ∀ k lower rest, lower ≤ level → Ends g (level + 1) rest →
      operations g (n + k) lower lhs (ts ++ rest) = operations g (m + k + 1) lower x rest := by
  induction n generalizing lhs ts with
  | zero => cases h
  | succ n ih =>
      cases operations_iff.mp h with
      | done _ =>
          refine ⟨n, fun k lower rest _ _ => ?_⟩
          rw [Nat.add_right_comm, List.nil_append]
      | @more o op us vs _ rhs _ hop _ hright hmore =>
          have hlevel : level ≤ g op := houter o op List.mem_cons_self hop
          have htakes := (takesMatched g n).operation hright
          obtain ⟨m, hm⟩ := ih hmore fun o' op' ho' hop' =>
            houter o' op' (List.mem_cons_of_mem _ (htakes.outermost_suffix.subset ho')) hop'
          refine ⟨m, fun k lower rest hlower hrest => ?_⟩
          have hread := (readsLocally g n).operation k hright fun _ =>
            hrest.mono (Nat.succ_le_succ hlevel)
          rw [Nat.add_right_comm, List.cons_append, operations, hop]
          simp only [if_pos (hlower.trans hlevel), hread]
          exact hm k lower rest hlower hrest

/-- **An expression holds together** at a level if it is no choice and if all outermost infixes bind
at least as strongly as the level. -/
theorem binds_of_expression (h : IsExpressionUnder g ts x)
    (hchoice : .mark .question ∉ outermost 0 ts)
    (houter : ∀ o op, .operator o ∈ outermost 0 ts → o.infix? = some op → level ≤ g op) :
    Binds g level ts x := by
  cases expression_iff.mp (isExpressionUnder_iff.mp h) with
  | choice hc _ _ =>
      have hleft := ((takesMatched g _).operation hc).outermost_suffix
      exact absurd (hleft.subset List.mem_cons_self) hchoice
  | operation hread _ =>
      obtain ⟨lhs, us, hlhs, hmore⟩ := operation_iff.mp hread
      have htakes := (takesMatched g _).operand hlhs
      obtain ⟨m, hm⟩ := operations_append hmore fun o op ho hop =>
        houter o op (htakes.outermost_suffix.subset ho) hop
      refine ⟨m, fun k lower rest hlower hrest => ?_⟩
      have hoperand := (readsLocally g _).operand k hlhs fun _ => hrest.detached
      have hfuel : 4 * ts.length + 2 + k = 4 * ts.length + 1 + k + 1 := by omega
      rw [hfuel, operation, hoperand]
      exact hm k lower rest hlower hrest

/-- **A difference** of which both sides hold together, the right one at a higher level. -/
theorem Binds.difference (hx : Binds g (g .sub) ts x) (hy : Binds g (g .sub + 1) us y) :
    IsOperationUnder g (ts ++ .operator .minus :: us) (.infixed .sub x y) := by
  obtain ⟨m, hm⟩ := hx
  obtain ⟨m', hm'⟩ := hy
  intro n rest hrest hn
  rw [List.length_append, List.length_cons] at hn
  obtain ⟨k, rfl⟩ : ∃ k, n = 4 * ts.length + 2 + (4 * us.length + 2 + k) :=
    ⟨n - (4 * ts.length + 2) - (4 * us.length + 2), by omega⟩
  have hminus : Ends g (g .sub + 1) (.operator .minus :: (us ++ rest)) := by
    refine ⟨?_, nofun, nofun⟩
    rintro o op ⟨⟩ ⟨⟩
    exact Nat.lt_succ_self _
  have hright := hm' (m + k) (g .sub + 1) rest le_rfl (hrest.ends g _)
  rw [operations_of_pauses hrest] at hright
  have hfuel : m + (4 * us.length + 2 + k) = 4 * us.length + 2 + (m + k) := by omega
  obtain ⟨l, hl⟩ := exists_fuel (n := 4 * us.length + 2 + (m + k)) (by omega)
  rw [List.append_assoc, List.cons_append, hm _ 0 _ (Nat.zero_le _) hminus, hfuel, operations_iff]
  refine .more rfl (Nat.zero_le _) hright ?_
  rw [hl]
  exact operations_of_pauses hrest

end Stimulus.Grammar
