import Stimulus.Proofs.Splicing.Leaves
import Stimulus.StateChart

/-!
# Sketches

A **sketch** says how statements are put together: which constructor is called, and on which list of
children, each of which is a sketch itself. Building a sketch builds the children first, in order,
and the first fault ends it. A sketch is **spliced** by putting, at every depth, the elements of
each list in the place of the list.

Two sketches that are the same once they are spliced cannot be told apart: they are built or refused
alike, and what is built has the same leaves. Since every constructor splices its children, what is
built below the outermost list is not only alike but equal.

## Main definitions

* `Sketch`, `Sketch.build`, `Sketch.splice`
* `Governor`, the constructors of statements with one list of children

## Main results

* `Sketch.buildAll_spliceAll`: splicing changes neither the fault of a sketch nor its leaves.
* `Sketch.buildAll_alike`: sketches that are the same once they are spliced.
-/

namespace Stimulus

open Build

/-! ### Constructors with one list of children -/

/-- What a constructor with one list of children is given besides them. -/
inductive Governor where
  | block (header : String)
  | onEvent (event : Event)
  | repeatLoop (count : Expr .integer)
  | whileLoop (condition : Expr .bool)
  | forLoop (start : Statement) (condition : Expr .bool) (next : Statement)

namespace Governor

/-- Calls the constructor. -/
def build? : Governor → List Statement → Except Fault Statement
  | .block header, items => Statement.block? header items
  | .onEvent event, items => Statement.onEvent? event items
  | .repeatLoop count, items => Statement.repeat? count items
  | .whileLoop condition, items => Statement.while? condition items
  | .forLoop start condition next, items => Statement.for? start condition next items

/-- The head that the constructor makes, which for a loop with an initialiser and a step has to be
made of single commands. -/
def head? : Governor → Option Head
  | .block header => some (.raw header)
  | .onEvent event => some (.onEvent event)
  | .repeatLoop count => some (.repeatLoop count)
  | .whileLoop condition => some (.whileLoop condition)
  | .forLoop (.command start) condition (.command next) => some (.forLoop start condition next)
  | .forLoop .. => none

end Governor

/-! ### Sketches -/

mutual

/-- How a statement is put together. -/
inductive Sketch where
  | command (c : Command)
  | step (s : ScriptStep)
  /-- A list as it is. -/
  | list (items : List Sketch)
  /-- A list that is spliced when it is made. -/
  | ofList (items : List Sketch)
  | governed (g : Governor) (items : List Sketch)
  | conditional (c : ConditionalSketch)
  | select (t : TableSketch)

/-- How a conditional is put together. -/
inductive ConditionalSketch where
  | new (condition : Expr .bool) (items : List Sketch)
  | otherwise (c : ConditionalSketch) (items : List Sketch)

/-- How a case is put together. -/
inductive TableSketch where
  | new (scrutinee : Value)
  | arm (t : TableSketch) (label : Value) (items : List Sketch)
  | defaultArm (t : TableSketch) (items : List Sketch)

end

mutual

/-- Puts a statement together. -/
def Sketch.build : Sketch → Except Fault Statement
  | .command c => .ok (.command c)
  | .step s => .ok (.step s)
  | .list items => do return .list (← Sketch.buildAll items)
  | .ofList items => do return .ofList (← Sketch.buildAll items)
  | .governed g items => do g.build? (← Sketch.buildAll items)
  | .conditional c => do return (← c.build).statement
  | .select t => do return (← t.build).statement

/-- Puts statements together, one after the other. -/
def Sketch.buildAll : List Sketch → Except Fault (List Statement)
  | [] => .ok []
  | s :: rest => do
    let first ← s.build
    let others ← Sketch.buildAll rest
    return first :: others

/-- Puts a conditional together. The children of a branch are built when it is added. -/
def ConditionalSketch.build : ConditionalSketch → Except Fault Conditional
  | .new condition items => do Conditional.new? condition (← Sketch.buildAll items)
  | .otherwise c items => do
    let c ← c.build
    c.otherwise? (← Sketch.buildAll items)

/-- Puts a case together. The children of an arm are built when it is added. -/
def TableSketch.build : TableSketch → Except Fault CaseTable
  | .new scrutinee => .ok (.new scrutinee)
  | .arm t label items => do
    let t ← t.build
    t.arm? label (← Sketch.buildAll items)
  | .defaultArm t items => do
    let t ← t.build
    t.defaultArm? (← Sketch.buildAll items)

end

mutual

/-- What stands in the place of a sketch once all lists have given way to their elements. -/
def Sketch.splice : Sketch → List Sketch
  | .command c => [.command c]
  | .step s => [.step s]
  | .list items => Sketch.spliceAll items
  | .ofList items => Sketch.spliceAll items
  | .governed g items => [.governed g (Sketch.spliceAll items)]
  | .conditional c => [.conditional c.splice]
  | .select t => [.select t.splice]

/-- Puts the elements of lists in the place of the lists, at every depth. -/
def Sketch.spliceAll : List Sketch → List Sketch
  | [] => []
  | s :: rest => s.splice ++ Sketch.spliceAll rest

/-- A conditional the branches of which are spliced at every depth. -/
def ConditionalSketch.splice : ConditionalSketch → ConditionalSketch
  | .new condition items => .new condition (Sketch.spliceAll items)
  | .otherwise c items => .otherwise c.splice (Sketch.spliceAll items)

/-- A case the arms of which are spliced at every depth. -/
def TableSketch.splice : TableSketch → TableSketch
  | .new scrutinee => .new scrutinee
  | .arm t label items => .arm t.splice label (Sketch.spliceAll items)
  | .defaultArm t items => .defaultArm t.splice (Sketch.spliceAll items)

end

/-! ### Constructors and leaves -/

section Constructors

variable {xs ys : List Statement} (h : leavesOf xs = leavesOf ys)

include h

/-- The check of children looks at leaves only. -/
theorem childrenOf_congr (owner : Owner) (steps : Bool) :
    childrenOf owner steps xs = childrenOf owner steps ys := by
  rw [childrenOf, childrenOf, h]

/-- Constructors with one list of children look at leaves only. -/
theorem Governor.build?_congr (g : Governor) : g.build? xs = g.build? ys := by
  cases g with
  | block header => rw [build?, build?, Statement.block?, Statement.block?, childrenOf_congr h]
  | onEvent event => rw [build?, build?, Statement.onEvent?, Statement.onEvent?, childrenOf_congr h]
  | repeatLoop count =>
      rw [build?, build?, Statement.repeat?, Statement.repeat?, childrenOf_congr h]
  | whileLoop condition =>
      rw [build?, build?, Statement.while?, Statement.while?, childrenOf_congr h]
  | forLoop start condition next =>
      rw [build?, build?, Statement.for?.eq_def, Statement.for?.eq_def]
      split
      · rw [childrenOf_congr h]
      · rfl

/-- Conditionals look at leaves only. -/
theorem Conditional.new?_congr (condition : Expr .bool) :
    new? condition xs = new? condition ys := by
  rw [new?, new?, childrenOf_congr h]

/-- Alternatives look at leaves only. -/
theorem Conditional.otherwise?_congr (c : Conditional) : c.otherwise? xs = c.otherwise? ys := by
  rw [otherwise?, otherwise?, childrenOf_congr h]

/-- Arms look at leaves only. -/
theorem CaseTable.arm?_congr (t : CaseTable) (label : Value) :
    t.arm? label xs = t.arm? label ys := by
  rw [arm?, arm?, childrenOf_congr h]

/-- Arms for all other values look at leaves only. -/
theorem CaseTable.defaultArm?_congr (t : CaseTable) : t.defaultArm? xs = t.defaultArm? ys := by
  rw [defaultArm?, defaultArm?, childrenOf_congr h]

/-- Lists that are spliced when they are made look at leaves only. -/
theorem Statement.ofList_congr : ofList xs = ofList ys := by
  rw [ofList, ofList, h]

end Constructors

/-- What a constructor with one list of children makes. -/
theorem Governor.build?_ok {g : Governor} {items : List Statement} {s : Statement}
    (h : g.build? items = .ok s) :
    ∃ head, g.head? = some head ∧ s = .block head (leavesOf items) := by
  cases g with
  | block header => exact ⟨_, rfl, of_childrenOf h⟩
  | onEvent event => exact ⟨_, rfl, of_childrenOf h⟩
  | repeatLoop count => exact ⟨_, rfl, of_childrenOf h⟩
  | whileLoop condition => exact ⟨_, rfl, of_childrenOf h⟩
  | forLoop start condition next =>
      rw [build?, Statement.for?.eq_def] at h
      split at h
      · exact ⟨_, rfl, of_childrenOf h⟩
      · cases h

/-! ### Splicing sketches -/

section Steps

variable {α : Type} {x y : Except Fault (List Statement)} {f g : List Statement → Except Fault α}

/-- What goes on with children that have the same leaves does the same if it looks at leaves
only. -/
theorem bind_congr_of_leaves (h : x.map leavesOf = y.map leavesOf)
    (hfg : ∀ ss ts, leavesOf ss = leavesOf ts → f ss = g ts) : x >>= f = y >>= g := by
  cases x with
  | error e =>
      cases y with
      | error e' =>
          obtain rfl := Except.error.inj h
          rfl
      | ok ts => cases h
  | ok ss =>
      cases y with
      | error e' => cases h
      | ok ts => exact hfg ss ts (Except.ok.inj h)

/-- The leaves of a statement that is put together alone. -/
theorem map_leavesOf_singleton (s : Except Fault Statement) :
    (s.map fun t => [t]).map leavesOf = s.map Statement.leaves := by
  cases s with
  | error e => rfl
  | ok t => exact congrArg Except.ok (leavesOf_singleton t)

end Steps

namespace Sketch

/-- A sketch alone is built as it is. -/
theorem buildAll_singleton (s : Sketch) : buildAll [s] = s.build.map fun t => [t] := by
  rw [buildAll, buildAll]
  cases s.build <;> rfl

/-- The leaves of sketches one after the other. -/
theorem map_leavesOf_append (xs ys : List Sketch) : (buildAll (xs ++ ys)).map leavesOf = (do
    let before ← (buildAll xs).map leavesOf
    let after ← (buildAll ys).map leavesOf
    return before ++ after) := by
  induction xs with
  | nil =>
      rw [List.nil_append, buildAll]
      cases buildAll ys <;> rfl
  | cons s rest ih =>
      rw [List.cons_append, buildAll, buildAll]
      cases s.build with
      | error e => rfl
      | ok t =>
          have hcons (z : Except Fault (List Statement)) :
              (do return t :: (← z)).map leavesOf = (z.map leavesOf).map (t.leaves ++ ·) := by
            cases z <;> rfl
          refine (hcons _).trans ?_
          rw [ih]
          cases buildAll rest with
          | error e => rfl
          | ok ss =>
              cases buildAll ys with
              | error e => rfl
              | ok ts => exact congrArg Except.ok (List.append_assoc _ _ _).symm

end Sketch

mutual

/-- A statement has the same leaves if its sketch is spliced. -/
theorem Sketch.build_splice : (s : Sketch) →
    s.build.map Statement.leaves = (Sketch.buildAll s.splice).map leavesOf
  | .command c => rfl
  | .step s => rfl
  | .list items => by
      rw [Sketch.splice, ← Sketch.buildAll_spliceAll items, Sketch.build]
      cases Sketch.buildAll items <;> rfl
  | .ofList items => by
      rw [Sketch.splice, ← Sketch.buildAll_spliceAll items, Sketch.build]
      cases Sketch.buildAll items with
      | error e => rfl
      | ok ss => exact congrArg Except.ok (leavesOf_leavesOf ss)
  | .governed g items => by
      rw [Sketch.splice, Sketch.buildAll_singleton, map_leavesOf_singleton, Sketch.build,
        Sketch.build, bind_congr_of_leaves (Sketch.buildAll_spliceAll items)
          fun ss ts h => Governor.build?_congr h g]
  | .conditional c => by
      rw [Sketch.splice, Sketch.buildAll_singleton, map_leavesOf_singleton, Sketch.build,
        Sketch.build, ConditionalSketch.build_splice c]
  | .select t => by
      rw [Sketch.splice, Sketch.buildAll_singleton, map_leavesOf_singleton, Sketch.build,
        Sketch.build, TableSketch.build_splice t]

/-- **Splicing sketches** changes neither the fault with which they are refused nor the leaves of
what is built. -/
theorem Sketch.buildAll_spliceAll : (items : List Sketch) →
    (Sketch.buildAll items).map leavesOf
      = (Sketch.buildAll (Sketch.spliceAll items)).map leavesOf
  | [] => rfl
  | s :: rest => by
      rw [Sketch.spliceAll, Sketch.map_leavesOf_append, ← Sketch.build_splice s,
        ← Sketch.buildAll_spliceAll rest, Sketch.buildAll]
      cases s.build with
      | error e => rfl
      | ok t => cases Sketch.buildAll rest <;> rfl

/-- A conditional is the same if its sketch is spliced. -/
theorem ConditionalSketch.build_splice : (c : ConditionalSketch) → c.build = c.splice.build
  | .new condition items => by
      rw [ConditionalSketch.splice, ConditionalSketch.build, ConditionalSketch.build]
      exact bind_congr_of_leaves (Sketch.buildAll_spliceAll items)
        fun ss ts h => Conditional.new?_congr h condition
  | .otherwise c items => by
      rw [ConditionalSketch.splice, ConditionalSketch.build, ConditionalSketch.build,
        ← ConditionalSketch.build_splice c]
      exact congrArg (c.build >>= ·) (funext fun c => bind_congr_of_leaves
        (Sketch.buildAll_spliceAll items) fun ss ts h => Conditional.otherwise?_congr h c)

/-- A case is the same if its sketch is spliced. -/
theorem TableSketch.build_splice : (t : TableSketch) → t.build = t.splice.build
  | .new scrutinee => rfl
  | .arm t label items => by
      rw [TableSketch.splice, TableSketch.build, TableSketch.build, ← TableSketch.build_splice t]
      exact congrArg (t.build >>= ·) (funext fun t => bind_congr_of_leaves
        (Sketch.buildAll_spliceAll items) fun ss ts h => CaseTable.arm?_congr h t label)
  | .defaultArm t items => by
      rw [TableSketch.splice, TableSketch.build, TableSketch.build, ← TableSketch.build_splice t]
      exact congrArg (t.build >>= ·) (funext fun t => bind_congr_of_leaves
        (Sketch.buildAll_spliceAll items) fun ss ts h => CaseTable.defaultArm?_congr h t)

end

namespace Sketch

/-- **Sketches that are the same once they are spliced** are refused with the same fault, or built
with the same leaves. -/
theorem buildAll_alike {xs ys : List Sketch} (h : spliceAll xs = spliceAll ys) :
    (∃ f, buildAll xs = .error f ∧ buildAll ys = .error f) ∨
    ∃ ss ts, buildAll xs = .ok ss ∧ buildAll ys = .ok ts ∧ leavesOf ss = leavesOf ts := by
  have hleaves : (buildAll xs).map leavesOf = (buildAll ys).map leavesOf := by
    rw [buildAll_spliceAll xs, buildAll_spliceAll ys, h]
  cases hx : buildAll xs with
  | error e =>
      cases hy : buildAll ys with
      | error e' =>
          rw [hx, hy] at hleaves
          exact .inl ⟨e, rfl, congrArg Except.error (Except.error.inj hleaves).symm⟩
      | ok ts => rw [hx, hy] at hleaves; cases hleaves
  | ok ss =>
      cases hy : buildAll ys with
      | error e' => rw [hx, hy] at hleaves; cases hleaves
      | ok ts =>
          rw [hx, hy] at hleaves
          exact .inr ⟨ss, ts, rfl, rfl, Except.ok.inj hleaves⟩

end Sketch

end Stimulus
