import Stimulus.Proofs.Grammar.Expression

/-!
# The grammar of statements

Statements as the simulator reads them. A lone semicolon is the **null statement**, `begin` and
`end` make one statement of several, and a head governs the one statement behind it. An `else`
belongs to the nearest `if` that has none yet. **Nodes** say what was read. The null statement
leaves no node, and a statement between `begin` and `end` leaves the nodes of what is in it, so the
body of a head is a list of nodes.

Commands, events and unknown heads are kept as they are, token by token. A **dialect** tells
unknown heads from commands. Nothing else is known of such a head; it could itself be a kind of
`if`. For this reason an `else` directly behind the statement that it governs is refused.

## Main definitions

* `Node`, `Dialect`, `statement`
* `readStatements`, the nodes of a whole text
* `IsStatement`, `IsEnclosed`: tokens that are read as one statement, in front of anything but an
  `else` and in front of anything

## Main results

* `IsStatement.branch`, `IsEnclosed.alternative`: conditionals keep the `else` that they have.
* `IsStatement.block`, `isEnclosed_select`
-/

namespace Stimulus.Grammar

/-! ### Nodes -/

/-- What governs a statement. -/
inductive NodeHead where
  | unknown (tokens : List Token)
  | onEvent (event : List Token)
  | repeatLoop (count : List Token)
  | whileLoop (condition : List Token)
  | forLoop (start condition next : List Token)
  deriving DecidableEq, Repr

/-- What is read from the text of a statement. -/
inductive Node where
  | command (tokens : List Token)
  | block (head : NodeHead) (body : List Node)
  | branch (condition : List Token) (yes no : List Node)
  /-- The arms of a case; the default arm has no label. -/
  | select (scrutinee : List Token) (arms : List (Option (List Token) × List Node))

/-- A dialect splits a text after an unknown head, if the text starts with one. -/
abbrev Dialect := List Token → Option (List Token × List Token)

/-! ### Reading -/

/-- The tokens that are no part of a command. -/
def isStructural : Token → Bool
  | .keyword _ => true
  | .mark .semicolon => true
  | .mark .sign => true
  | _ => false

/-- Splits a text in front of the next semicolon. -/
def upToSemicolon (ts : List Token) : List Token × List Token :=
  (ts.takeWhile (· != .mark .semicolon), ts.dropWhile (· != .mark .semicolon))

/-- Reads a command and the semicolon behind it. -/
def command (ts : List Token) : Option (List Node × List Token) :=
  match upToSemicolon ts with
  | (c, .mark .semicolon :: rest) =>
    if c.isEmpty || c.any isStructural then none else some ([.command c], rest)
  | _ => none

/-- Splits a text at the parenthesis that closes the one opened before it, of which `depth` more
have to be closed first. -/
def closing : Nat → List Token → Option (List Token × List Token)
  | _, [] => none
  | depth, t :: ts =>
    if t = .mark .openParen then
      (closing (depth + 1) ts).map fun (front, rest) => (t :: front, rest)
    else if t = .mark .closeParen then
      if depth = 0 then some ([], ts)
      else (closing (depth - 1) ts).map fun (front, rest) => (t :: front, rest)
    else (closing depth ts).map fun (front, rest) => (t :: front, rest)

variable (d : Dialect) (g : Strengths)

/-- Splits a text after the expression in front of it. -/
def afterExpression (n : Nat) (ts : List Token) : Option (List Token × List Token) :=
  (expression g n ts).map fun (_, rest) => (ts.take (ts.length - rest.length), rest)

/-- Splits a text after an expression in parentheses. -/
def condition (n : Nat) : List Token → Option (List Token × List Token)
  | .mark .openParen :: ts =>
    match afterExpression g n ts with
    | some (c, .mark .closeParen :: rest) => some (c, rest)
    | _ => none
  | _ => none

/-- Reads what stands between the parentheses of a counting loop. -/
def counting (n : Nat) (ts : List Token) : Option (NodeHead × List Token) :=
  match upToSemicolon ts with
  | (start, .mark .semicolon :: ts) =>
    match afterExpression g n ts with
    | some (c, .mark .semicolon :: ts) =>
      (closing 0 ts).map fun (next, ts) => (.forLoop start c next, ts)
    | _ => none
  | _ => none

/-- Reads a head of the language. -/
def knownHead (n : Nat) : List Token → Option (NodeHead × List Token)
  | .mark .sign :: .mark .openParen :: ts => (closing 0 ts).map fun (e, ts) => (.onEvent e, ts)
  | .keyword .loop :: ts => (condition g n ts).map fun (c, ts) => (.repeatLoop c, ts)
  | .keyword .while :: ts => (condition g n ts).map fun (c, ts) => (.whileLoop c, ts)
  | .keyword .for :: .mark .openParen :: ts => counting g n ts
  | _ => none

/-- Reads a head that governs the statement behind it. -/
def head (n : Nat) (ts : List Token) : Option (NodeHead × List Token) :=
  match d ts with
  | some (h, ts) => some (.unknown h, ts)
  | none => knownHead g n ts

/-- Whether nothing is known of a head. -/
def NodeHead.isUnknown : NodeHead → Bool
  | .unknown _ => true
  | _ => false

/-- The words with which no statement starts. -/
def isEnding : Token → Bool
  | .keyword .finish => true
  | .keyword .otherwise => true
  | .keyword .endcase => true
  | .keyword .default => true
  | _ => false

/-- Whether an `else` comes next. -/
def atElse : List Token → Bool
  | .keyword .otherwise :: _ => true
  | _ => false

mutual

/-- Reads one statement. -/
def statement : Nat → List Token → Option (List Node × List Token)
  | 0, _ => none
  | _ + 1, .mark .semicolon :: ts => some ([], ts)
  | n + 1, .keyword .begin :: ts =>
    match statements n ts with
    | some (xs, .keyword .finish :: ts) => some (xs, ts)
    | _ => none
  | _ + 1, [] => none
  | n + 1, t :: ts => if isEnding t then none else proper n (t :: ts)

/-- Reads a statement that is neither null nor several. -/
def proper : Nat → List Token → Option (List Node × List Token)
  | 0, _ => none
  | n + 1, ts =>
    match head d g n ts with
    | none => compound n ts
    | some (h, ts) =>
      match statement n ts with
      | none => none
      | some (body, ts) => if h.isUnknown && atElse ts then none else some ([.block h body], ts)

/-- Reads a statement that no head governs. -/
def compound : Nat → List Token → Option (List Node × List Token)
  | 0, _ => none
  | n + 1, .keyword .cond :: ts => conditional n ts
  | n + 1, .keyword .case :: ts =>
    match condition g n ts with
    | none => none
    | some (v, ts) => (arms n ts).map fun (as, ts) => ([.select v as], ts)
  | _ + 1, ts => command ts

/-- Goes on behind an `if`. -/
def conditional : Nat → List Token → Option (List Node × List Token)
  | 0, _ => none
  | n + 1, ts =>
    match condition g n ts with
    | none => none
    | some (c, ts) =>
      match statement n ts with
      | none => none
      | some (yes, ts) =>
        if atElse ts then (statement n ts.tail).map fun (no, ts) => ([.branch c yes no], ts)
        else some ([.branch c yes []], ts)

/-- Reads all statements up to the next `end` or the end of the text. -/
def statements : Nat → List Token → Option (List Node × List Token)
  | 0, _ => none
  | _ + 1, [] => some ([], [])
  | _ + 1, .keyword .finish :: ts => some ([], .keyword .finish :: ts)
  | n + 1, ts =>
    match statement n ts with
    | none => none
    | some (xs, ts) => (statements n ts).map fun (ys, ts) => (xs ++ ys, ts)

/-- Reads the arms of a case and the word that ends it. -/
def arms : Nat → List Token → Option (List (Option (List Token) × List Node) × List Token)
  | 0, _ => none
  | _ + 1, .keyword .endcase :: ts => some ([], ts)
  | n + 1, .keyword .default :: .mark .colon :: ts => arm n none ts
  | n + 1, ts =>
    match afterExpression g n ts with
    | some (v, .mark .colon :: ts) => arm n (some v) ts
    | _ => none

/-- Reads the statement of an arm and the arms after it. -/
def arm : Nat → Option (List Token) → List Token →
    Option (List (Option (List Token) × List Node) × List Token)
  | 0, _, _ => none
  | n + 1, label, ts =>
    match statement n ts with
    | none => none
    | some (xs, ts) => (arms n ts).map fun (as, ts) => ((label, xs) :: as, ts)

end

/-- Reads a whole text as statements. -/
def readStatements (text : String) : Option (List Node) :=
  match lex text.toList with
  | none => none
  | some ts =>
    match statements d g (4 * ts.length + 4) ts with
    | some (xs, []) => some xs
    | _ => none

/-! ### Parts of statements -/

variable {d : Dialect} {g : Strengths} {ts us vs : List Token}

/-- What stands in front of a semicolon. -/
theorem upToSemicolon_append (h : .mark .semicolon ∉ ts) (rest : List Token) :
    upToSemicolon (ts ++ .mark .semicolon :: rest) = (ts, .mark .semicolon :: rest) := by
  have hts : ∀ t ∈ ts, (t != .mark .semicolon) = true := by
    intro t ht
    rw [bne_iff_ne]
    rintro rfl
    exact h ht
  simp [upToSemicolon, List.takeWhile_append_of_pos hts, List.dropWhile_append_of_pos hts]

/-- Tokens among which every parenthesis is closed. -/
def IsClosed (ts : List Token) : Prop :=
  ∀ depth rest, closing depth (ts ++ rest)
    = (closing depth rest).map fun (front, rest) => (ts ++ front, rest)

/-- The parenthesis behind such tokens is the one that closes them. -/
theorem IsClosed.closing (h : IsClosed ts) (rest : List Token) :
    closing 0 (ts ++ .mark .closeParen :: rest) = some (ts, rest) := by
  rw [h 0]
  simp [Grammar.closing]

/-- An expression is followed by what is left. -/
theorem IsExpression.after {x : Tree} (h : IsExpression ts x) (n : Nat) (rest : List Token)
    (hrest : Stops rest) (hn : 4 * ts.length + 3 ≤ n) :
    afterExpression g n (ts ++ rest) = some (ts, rest) := by
  rw [afterExpression, h g n rest hrest hn]
  simp

/-- An expression in parentheses. -/
theorem IsExpression.condition {x : Tree} (h : IsExpression ts x) (n : Nat) (rest : List Token)
    (hn : 4 * ts.length + 3 ≤ n) :
    condition g n (Grammar.parenthesised ts ++ rest) = some (ts, rest) := by
  have hafter := h.after (g := g) n (.mark .closeParen :: rest) (by rintro t ⟨⟩; decide) hn
  simp only [Grammar.parenthesised, List.cons_append, List.append_assoc, List.nil_append,
    Grammar.condition, hafter]

/-! ### Tokens and their nodes -/

variable (d g) in
/-- Tokens that are read as one statement, in front of anything. -/
def IsEnclosed (ts : List Token) (xs : List Node) : Prop :=
  ∀ (n : Nat) (rest : List Token), 4 * ts.length + 3 ≤ n →
    statement d g n (ts ++ rest) = some (xs, rest)

variable (d g) in
/-- Tokens that are read as one statement, in front of anything but an `else`. -/
def IsStatement (ts : List Token) (xs : List Node) : Prop :=
  ∀ (n : Nat) (rest : List Token), atElse rest = false → 4 * ts.length + 3 ≤ n →
    statement d g n (ts ++ rest) = some (xs, rest)

variable (d g) in
/-- Tokens that are read as statements, in front of an `end` or of nothing. -/
def IsSequence (ts : List Token) (xs : List Node) : Prop :=
  ∀ (n : Nat) (rest : List Token), (rest = [] ∨ ∃ more, rest = .keyword .finish :: more) →
    4 * ts.length + 4 ≤ n → statements d g n (ts ++ rest) = some (xs, rest)

variable (d) in
/-- Tokens that the dialect takes for no unknown head. -/
def Apart (ts : List Token) : Prop :=
  ∀ rest, d (ts ++ rest) = none

variable {xs ys : List Node}

/-- Enclosed tokens are a statement. -/
theorem IsEnclosed.isStatement (h : IsEnclosed d g ts xs) : IsStatement d g ts xs :=
  fun n rest _ hn => h n rest hn

/-- A statement has tokens, and it starts with none of the words that end something. -/
theorem IsStatement.exists_cons (h : IsStatement d g ts xs) :
    ∃ t us, ts = t :: us ∧ isEnding t = false := by
  cases ts with
  | nil =>
      -- In front of a semicolon the null statement would be read, and the semicolon with it.
      have hread := h 3 [.mark .semicolon] rfl le_rfl
      simp [statement] at hread
  | cons t us =>
      refine ⟨t, us, rfl, ?_⟩
      have hread := h (4 * (t :: us).length + 3) [] rfl le_rfl
      rw [Bool.eq_false_iff]
      intro ht
      cases t with
      | keyword k =>
          cases k <;> simp [isEnding] at ht <;> simp [statement, isEnding] at hread
      | _ => simp [isEnding] at ht

/-- Tokens that start neither the null statement nor a sequence, and that do not end anything. -/
def opens : List Token → Bool
  | [] => false
  | t :: _ => t != .mark .semicolon && t != .keyword .begin && !isEnding t

/-- They start a proper statement. -/
theorem statement_eq_proper (h : opens ts = true) (n : Nat) (rest : List Token) :
    statement d g (n + 1) (ts ++ rest) = proper d g n (ts ++ rest) := by
  cases ts with
  | nil => cases h
  | cons t ts =>
      cases t with
      | keyword k => cases k <;> first | rfl | cases h
      | mark m => cases m <;> first | rfl | cases h
      | _ => rfl

/-- The null statement. -/
theorem isEnclosed_null : IsEnclosed d g [.mark .semicolon] [] := by
  intro n rest hn
  obtain ⟨n, rfl⟩ := exists_fuel (n := n) (by omega)
  rfl

/-- Several statements between `begin` and `end`. -/
theorem IsSequence.enclosed (h : IsSequence d g ts xs) :
    IsEnclosed d g (.keyword .begin :: (ts ++ [.keyword .finish])) xs := by
  intro n rest hn
  simp only [List.length_cons, List.length_append, List.length_nil] at hn
  obtain ⟨n, rfl⟩ := exists_fuel (n := n) (by omega)
  have hread := h n (.keyword .finish :: rest) (.inr ⟨rest, rfl⟩) (by omega)
  simp only [List.cons_append, List.append_assoc, List.nil_append, statement, hread]

/-- No statements. -/
theorem isSequence_nil : IsSequence d g [] [] := by
  intro n rest hrest hn
  obtain ⟨n, rfl⟩ := exists_fuel (n := n) (by omega)
  rcases hrest with rfl | ⟨more, rfl⟩ <;> rfl

/-- Statements do not start with an `else`. -/
theorem IsSequence.atElse (h : IsSequence d g ts xs) {rest : List Token}
    (hrest : rest = [] ∨ ∃ more, rest = .keyword .finish :: more) :
    atElse (ts ++ rest) = false := by
  cases ts with
  | nil => rcases hrest with rfl | ⟨more, rfl⟩ <;> rfl
  | cons t ts =>
      have hread := h (4 * (t :: ts).length + 4) [] (.inl rfl) le_rfl
      cases t with
      | keyword k =>
          cases k with
          | otherwise => simp [statements, statement, isEnding] at hread
          | _ => rfl
      | _ => rfl

/-- A statement in front of others. -/
theorem IsStatement.append (h : IsStatement d g ts xs) (hmore : IsSequence d g us ys) :
    IsSequence d g (ts ++ us) (xs ++ ys) := by
  intro n rest hrest hn
  obtain ⟨t, more, rfl, ht⟩ := h.exists_cons
  simp only [List.length_append, List.length_cons] at hn
  obtain ⟨n, rfl⟩ := exists_fuel (n := n) (by omega)
  have hread := h n (us ++ rest) (hmore.atElse hrest) (by rw [List.length_cons]; omega)
  have hreadMore := hmore n rest hrest (by omega)
  -- The first token ends nothing, so that the reader goes on with a statement.
  have hstatements : statements d g (n + 1) (t :: (more ++ (us ++ rest)))
      = match statement d g n (t :: (more ++ (us ++ rest))) with
        | none => none
        | some (xs, ts) => (statements d g n ts).map fun (ys, ts) => (xs ++ ys, ts) := by
    cases t with
    | keyword k => cases k <;> first | rfl | cases ht
    | _ => rfl
  simp only [List.cons_append, List.append_assoc] at hread ⊢
  rw [hstatements, hread]
  simp only [hreadMore, Option.map_some]

/-! ### Commands -/

/-- Tokens without structure that are read as a command if they are no head. -/
theorem proper_command {t : Token} (ht : isStructural t = false) (hapart : d (t :: ts) = none)
    (n : Nat) : proper d g (n + 2) (t :: ts) = command (t :: ts) := by
  have hhead : head d g (n + 1) (t :: ts) = none := by
    rw [head, hapart]
    cases t with
    | keyword k => cases ht
    | mark m => cases m <;> first | rfl | cases ht
    | _ => rfl
  rw [proper, hhead]
  cases t with
  | keyword k => cases ht
  | _ => rfl

/-- A command and its semicolon. -/
theorem isEnclosed_command (hne : ts ≠ []) (hplain : ∀ t ∈ ts, isStructural t = false)
    (hapart : Apart d (ts ++ [.mark .semicolon])) :
    IsEnclosed d g (ts ++ [.mark .semicolon]) [.command ts] := by
  intro n rest hn
  simp only [List.length_append, List.length_cons, List.length_nil] at hn
  obtain ⟨n, rfl⟩ : ∃ m, n = m + 3 := ⟨n - 3, by omega⟩
  obtain ⟨t, us, rfl⟩ := List.exists_cons_of_ne_nil hne
  have hopens : opens (t :: us ++ [.mark .semicolon]) = true := by
    have ht := hplain t List.mem_cons_self
    cases t with
    | keyword k => cases ht
    | mark m => cases m <;> first | rfl | cases ht
    | _ => rfl
  have hany : (t :: us).any isStructural = false := by
    rw [List.any_eq_false]
    exact fun t ht => by simp [hplain t ht]
  have hsemicolon : Token.mark .semicolon ∉ t :: us := by
    intro hmem
    cases hplain _ hmem
  rw [statement_eq_proper hopens, List.append_assoc, List.cons_append,
    proper_command (hplain t List.mem_cons_self) (by simpa using hapart rest)]
  rw [← List.cons_append, List.singleton_append, command, upToSemicolon_append hsemicolon]
  simp only [hany, List.isEmpty_cons, Bool.or_self, Bool.false_eq_true, if_false]

/-! ### Blocks -/

variable (d g) in
/-- Tokens that are read as a head. -/
structure IsHead (ts : List Token) (h : NodeHead) : Prop where
  opens : opens ts = true
  read : ∀ (n : Nat) (rest : List Token), 4 * ts.length ≤ n →
    head d g n (ts ++ rest) = some (h, rest)

/-- Tokens that open have tokens. -/
theorem length_pos_of_opens (h : opens ts = true) : 0 < ts.length := by
  cases ts with
  | nil => cases h
  | cons t ts => exact Nat.succ_pos _

/-- **A head governs the statement behind it.** -/
theorem IsStatement.block {h : NodeHead} (hhead : IsHead d g ts h) (hbody : IsStatement d g us xs) :
    IsStatement d g (ts ++ us) [.block h xs] := by
  intro n rest hrest hn
  have hpos := length_pos_of_opens hhead.opens
  rw [List.length_append] at hn
  obtain ⟨n, rfl⟩ : ∃ m, n = m + 2 := ⟨n - 2, by omega⟩
  have hread := hbody n rest hrest (by omega)
  rw [List.append_assoc, statement_eq_proper hhead.opens, proper, hhead.read n _ (by omega)]
  simp only [hread, hrest, Bool.and_false, Bool.false_eq_true, if_false]

/-- A head that only the dialect knows. -/
theorem isHead_unknown (hopens : opens ts = true) (h : ∀ rest, d (ts ++ rest) = some (ts, rest)) :
    IsHead d g ts (.unknown ts) := by
  refine ⟨hopens, fun n rest _ => ?_⟩
  rw [head, h rest]

/-- The head of an event block. -/
theorem isHead_onEvent (hclosed : IsClosed ts)
    (hapart : Apart d (.mark .sign :: parenthesised ts)) :
    IsHead d g (.mark .sign :: parenthesised ts) (.onEvent ts) := by
  refine ⟨rfl, fun n rest _ => ?_⟩
  rw [head, hapart rest]
  simp only [parenthesised, List.cons_append, List.append_assoc, List.nil_append, knownHead,
    hclosed.closing, Option.map_some]

/-- The head of a loop that runs a number of times. -/
theorem isHead_repeatLoop {x : Tree} (hx : IsExpression ts x)
    (hapart : Apart d (.keyword .loop :: parenthesised ts)) :
    IsHead d g (.keyword .loop :: parenthesised ts) (.repeatLoop ts) := by
  refine ⟨rfl, fun n rest hn => ?_⟩
  simp only [parenthesised, List.length_cons, List.length_append, List.length_nil] at hn
  rw [head, hapart rest]
  simp only [List.cons_append, knownHead, hx.condition (g := g) n rest (by omega),
    Option.map_some]

/-- The head of a loop that runs while a condition holds. -/
theorem isHead_whileLoop {x : Tree} (hx : IsExpression ts x)
    (hapart : Apart d (.keyword .while :: parenthesised ts)) :
    IsHead d g (.keyword .while :: parenthesised ts) (.whileLoop ts) := by
  refine ⟨rfl, fun n rest hn => ?_⟩
  simp only [parenthesised, List.length_cons, List.length_append, List.length_nil] at hn
  rw [head, hapart rest]
  simp only [List.cons_append, knownHead, hx.condition (g := g) n rest (by omega),
    Option.map_some]

/-- The tokens of a counting loop between its parentheses. -/
def counted (start condition next : List Token) : List Token :=
  start ++ .mark .semicolon :: (condition ++ .mark .semicolon :: next)

/-- The head of a counting loop. -/
theorem isHead_forLoop {x : Tree} (hstart : .mark .semicolon ∉ ts) (hx : IsExpression us x)
    (hnext : IsClosed vs) (hapart : Apart d (.keyword .for :: parenthesised (counted ts us vs))) :
    IsHead d g (.keyword .for :: parenthesised (counted ts us vs)) (.forLoop ts us vs) := by
  refine ⟨rfl, fun n rest hn => ?_⟩
  simp only [parenthesised, counted, List.length_cons, List.length_append, List.length_nil] at hn
  have hafter := hx.after (g := g) n
    (.mark .semicolon :: (vs ++ .mark .closeParen :: rest)) (by rintro t ⟨⟩; decide)
    (by omega)
  rw [head, hapart rest]
  simp only [parenthesised, counted, List.cons_append, List.append_assoc, List.nil_append,
    knownHead, counting, upToSemicolon_append hstart, hafter, hnext.closing, Option.map_some]

/-! ### Conditionals -/

/-- What the dialect does not know is a compound statement if the language has no head for it. -/
theorem proper_compound (hapart : d ts = none) {n : Nat} (hhead : knownHead g n ts = none) :
    proper d g (n + 1) ts = compound d g n ts := by
  rw [proper, head, hapart]
  dsimp only
  rw [hhead]

/-- An `if` is followed by its condition and its first branch. -/
theorem statement_cond {x : Tree} (hx : IsExpression ts x)
    (hapart : Apart d (.keyword .cond :: parenthesised ts)) {n : Nat} {rest : List Token}
    (hn : 4 * ts.length + 3 ≤ n) :
    statement d g (n + 4) (.keyword .cond :: (parenthesised ts ++ rest))
      = match statement d g n rest with
        | none => none
        | some (yes, rest) =>
          if atElse rest then
            (statement d g n rest.tail).map fun (no, rest) => ([.branch ts yes no], rest)
          else some ([.branch ts yes []], rest) := by
  change proper d g (n + 3) _ = _
  rw [proper_compound (by rw [← List.cons_append, hapart]) rfl]
  change conditional d g (n + 1) _ = _
  rw [conditional, hx.condition n rest hn]

/-- **A conditional without an alternative.** -/
theorem IsStatement.branch {x : Tree} (hx : IsExpression ts x)
    (hapart : Apart d (.keyword .cond :: parenthesised ts)) (hyes : IsStatement d g us xs) :
    IsStatement d g (.keyword .cond :: (parenthesised ts ++ us)) [.branch ts xs []] := by
  intro n rest hrest hn
  simp only [parenthesised, List.length_cons, List.length_append, List.length_nil] at hn
  obtain ⟨n, rfl⟩ : ∃ m, n = m + 4 := ⟨n - 4, by omega⟩
  rw [List.cons_append, List.append_assoc, statement_cond hx hapart (by omega),
    hyes n rest hrest (by omega)]
  dsimp only
  rw [hrest]
  rfl

/-- **A conditional with an alternative.** The `else` is its own, since no `if` in the enclosed
first branch waits for one. -/
theorem IsEnclosed.alternative {x : Tree} (hx : IsExpression ts x)
    (hapart : Apart d (.keyword .cond :: parenthesised ts)) (hyes : IsEnclosed d g us xs)
    (hno : IsStatement d g vs ys) :
    IsStatement d g (.keyword .cond :: (parenthesised ts ++ (us ++ .keyword .otherwise :: vs)))
      [.branch ts xs ys] := by
  intro n rest hrest hn
  simp only [parenthesised, List.length_cons, List.length_append, List.length_nil] at hn
  obtain ⟨n, rfl⟩ : ∃ m, n = m + 4 := ⟨n - 4, by omega⟩
  rw [List.cons_append, List.append_assoc, statement_cond hx hapart (by omega), List.append_assoc,
    List.cons_append, hyes n _ (by omega)]
  dsimp only [Grammar.atElse, List.tail_cons]
  rw [hno n rest hrest (by omega)]
  rfl

/-! ### Cases -/

variable (d g) in
/-- Tokens that are read as the arms of a case, together with the word that ends it. -/
def IsArms (ts : List Token) (as : List (Option (List Token) × List Node)) : Prop :=
  ∀ (n : Nat) (rest : List Token), 4 * ts.length + 4 ≤ n →
    arms d g n (ts ++ rest) = some (as, rest)

variable {as : List (Option (List Token) × List Node)}

/-- A case without further arms. -/
theorem isArms_nil : IsArms d g [.keyword .endcase] [] := by
  intro n rest hn
  obtain ⟨n, rfl⟩ := exists_fuel (n := n) (by omega)
  rfl

/-- The arms of a case do not start with an `else`. -/
theorem IsArms.atElse (h : IsArms d g ts as) (rest : List Token) : atElse (ts ++ rest) = false := by
  have hread := h (4 * ts.length + 4) rest le_rfl
  rw [Bool.eq_false_iff]
  intro helse
  cases hts : ts ++ rest with
  | nil => simp [hts, Grammar.atElse] at helse
  | cons t more =>
      rw [hts] at hread helse
      cases t with
      | keyword k =>
          cases k with
          | otherwise => simp [arms, afterExpression, expression_keyword] at hread
          | _ => cases helse
      | _ => cases helse

/-- The statement of an arm and the arms after it. -/
theorem IsStatement.arm (h : IsStatement d g ts xs) (hmore : IsArms d g us as)
    (label : Option (List Token)) {n : Nat} {rest : List Token}
    (hn : 4 * ts.length + 4 * us.length + 5 ≤ n) :
    arm d g n label (ts ++ (us ++ rest)) = some ((label, xs) :: as, rest) := by
  obtain ⟨n, rfl⟩ := exists_fuel (n := n) (by omega)
  rw [Grammar.arm, h n _ (hmore.atElse rest) (by omega)]
  dsimp only
  rw [hmore n rest (by omega)]
  rfl

/-- The arm that is taken when no label fits. -/
theorem IsArms.default (h : IsStatement d g ts xs) (hmore : IsArms d g us as) :
    IsArms d g (.keyword .default :: .mark .colon :: (ts ++ us)) ((none, xs) :: as) := by
  intro n rest hn
  simp only [List.length_cons, List.length_append] at hn
  obtain ⟨n, rfl⟩ := exists_fuel (n := n) (by omega)
  simp only [List.cons_append, List.append_assoc, arms]
  exact h.arm hmore none (by omega)

/-- An arm with a label. -/
theorem IsArms.labelled {x : Tree} (hx : IsExpression ts x) (h : IsStatement d g us xs)
    (hmore : IsArms d g vs as) :
    IsArms d g (ts ++ .mark .colon :: (us ++ vs)) ((some ts, xs) :: as) := by
  intro n rest hn
  simp only [List.length_cons, List.length_append] at hn
  obtain ⟨n, rfl⟩ := exists_fuel (n := n) (by omega)
  have hafter := hx.after (g := g) n (.mark .colon :: (us ++ (vs ++ rest)))
    (by rintro t ⟨⟩; decide) (by omega)
  -- An expression starts with no reserved word, so that the arm is taken for neither of the others.
  have harms : arms d g (n + 1) (ts ++ .mark .colon :: (us ++ (vs ++ rest)))
      = match afterExpression g n (ts ++ .mark .colon :: (us ++ (vs ++ rest))) with
        | some (v, .mark .colon :: ts) => Grammar.arm d g n (some v) ts
        | _ => none := by
    cases hts : ts ++ .mark .colon :: (us ++ (vs ++ rest)) with
    | nil => rfl
    | cons t more =>
        cases t with
        | keyword k => simp [hts, afterExpression, expression_keyword] at hafter
        | _ => rfl
  simp only [List.append_assoc, List.cons_append]
  rw [harms, hafter]
  exact h.arm hmore (some ts) (by omega)

/-- **A case governs its arms.** -/
theorem isEnclosed_select {x : Tree} (hx : IsExpression ts x)
    (hapart : Apart d (.keyword .case :: parenthesised ts)) (harms : IsArms d g us as) :
    IsEnclosed d g (.keyword .case :: (parenthesised ts ++ us)) [.select ts as] := by
  intro n rest hn
  simp only [parenthesised, List.length_cons, List.length_append, List.length_nil] at hn
  obtain ⟨n, rfl⟩ : ∃ m, n = m + 3 := ⟨n - 3, by omega⟩
  rw [List.cons_append, List.append_assoc]
  change proper d g (n + 2) _ = _
  rw [proper_compound (by rw [← List.cons_append, hapart]) rfl]
  simp only [compound, hx.condition (g := g) n (us ++ rest) (by omega),
    harms n rest (by omega), Option.map_some]

/-! ### Whole texts -/

/-- **A text whose tokens are statements** is read as their nodes. -/
theorem readStatements_eq {text : String} (hlex : lex text.toList = some ts)
    (h : IsSequence d g ts xs) : readStatements d g text = some xs := by
  have hread := h (4 * ts.length + 4) [] (.inl rfl) le_rfl
  rw [List.append_nil] at hread
  rw [readStatements, hlex]
  dsimp only
  rw [hread]

end Stimulus.Grammar
