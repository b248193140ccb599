import Mathlib.Logic.Relation
import Stimulus.Statement.Build

/-!
# The nodes of statements

Searching a statement (`Statement.anyNode`) walks over its nodes. Here the walk is put in terms of
the tree: a statement has **children**, and what can be reached through children is **within** it.

## Main results

* `Statement.anyNode_iff`: a search finds a node exactly if there is one within the statement.
* `within_of_mem_leavesOf`: splicing makes up no nodes and leaves no lists.
-/

namespace Stimulus

/-! ### Searching -/

/-- Searching two lists in a row. -/
@[simp] theorem anyNodeOf_append (p : Statement → Bool) (xs ys : List Statement) :
    anyNodeOf p (xs ++ ys) = (anyNodeOf p xs || anyNodeOf p ys) := by
  induction xs with
  | nil => rfl
  | cons x xs ih => rw [List.cons_append, anyNodeOf, anyNodeOf, ih, Bool.or_assoc]

/-- A list is searched statement by statement. -/
theorem anyNodeOf_eq_any (p : Statement → Bool) (items : List Statement) :
    anyNodeOf p items = items.any (·.anyNode p) := by
  induction items with
  | nil => rfl
  | cons s rest ih => rw [anyNodeOf, List.any_cons, ih]

/-- The arms of a case are searched arm by arm. -/
theorem anyNodeOfArms_eq_any (p : Statement → Bool) (arms : List Arm) :
    anyNodeOfArms p arms = arms.any fun a => anyNodeOf p a.body := by
  induction arms with
  | nil => rfl
  | cons a rest ih =>
      obtain ⟨label, body⟩ := a
      rw [anyNodeOfArms, List.any_cons, ih, Arm.body]

/-- A list has no node with a property if none of its statements has one. -/
theorem anyNodeOf_eq_false {p : Statement → Bool} {items : List Statement} :
    anyNodeOf p items = false ↔ ∀ s ∈ items, s.anyNode p = false := by
  simp only [anyNodeOf_eq_any, List.any_eq_false, Bool.not_eq_true]

namespace Statement

/-! ### Children -/

/-- The statements that a statement holds or governs, in order. -/
def children : Statement → List Statement
  | .command _ => []
  | .list items => items
  | .block _ body => body
  | .branch _ yes no => yes ++ no
  | .select _ arms => arms.flatMap (·.body)
  | .step _ => []

/-- A list of statements. -/
def isList : Statement → Bool
  | .list _ => true
  | _ => false

/-- A statement is searched at its root and in its children. -/
theorem anyNode_eq (p : Statement → Bool) (s : Statement) :
    s.anyNode p = (p s || anyNodeOf p s.children) := by
  cases s with
  | command | step => rw [anyNode, children, anyNodeOf, Bool.or_false]
  | list | block => rw [anyNode, children]
  | branch condition yes no => rw [anyNode, children, anyNodeOf_append, Bool.or_assoc]
  | select scrutinee arms =>
      rw [anyNode, children, anyNodeOfArms_eq_any, anyNodeOf_eq_any, List.any_flatMap]
      simp only [anyNodeOf_eq_any]

/-- Children are smaller. -/
theorem sizeOf_lt_of_mem_children {s t : Statement} (h : t ∈ s.children) :
    sizeOf t < sizeOf s := by
  cases s with
  | command | step => exact absurd h List.not_mem_nil
  | list items =>
      have : sizeOf t < sizeOf items := List.sizeOf_lt_of_mem h
      simp only [list.sizeOf_spec]
      omega
  | block head body =>
      have : sizeOf t < sizeOf body := List.sizeOf_lt_of_mem h
      simp only [block.sizeOf_spec]
      omega
  | branch condition yes no =>
      simp only [branch.sizeOf_spec]
      rcases List.mem_append.mp h with h | h
      · have := List.sizeOf_lt_of_mem h
        omega
      · have := List.sizeOf_lt_of_mem h
        omega
  | select scrutinee arms =>
      obtain ⟨⟨label, body⟩, harm, h⟩ := List.mem_flatMap.mp h
      have harm := List.sizeOf_lt_of_mem harm
      have hbody := List.sizeOf_lt_of_mem h
      simp only [select.sizeOf_spec, Arm.mk.sizeOf_spec, Arm.body] at harm hbody ⊢
      omega

/-! ### Nodes -/

/-- A node of a statement: the statement itself, or a node of a child. -/
def Within (t s : Statement) : Prop :=
  Relation.ReflTransGen (fun parent child => child ∈ parent.children) s t

/-- A statement is within itself. -/
theorem Within.refl (s : Statement) : s.Within s :=
  Relation.ReflTransGen.refl

/-- What is within a child is within its parent. -/
theorem Within.of_child {t c s : Statement} (hc : c ∈ s.children) (h : t.Within c) : t.Within s :=
  Relation.ReflTransGen.head hc h

/-- Nodes of nodes are nodes. -/
theorem Within.trans {t u s : Statement} (h : t.Within u) (h' : u.Within s) : t.Within s :=
  Relation.ReflTransGen.trans h' h

/-- A node is the statement itself or a node of a child. -/
theorem within_iff {t s : Statement} : t.Within s ↔ t = s ∨ ∃ c ∈ s.children, t.Within c := by
  constructor
  · intro h
    rcases Relation.ReflTransGen.cases_head h with rfl | ⟨c, hc, h⟩
    · exact .inl rfl
    · exact .inr ⟨c, hc, h⟩
  · rintro (rfl | ⟨c, hc, h⟩)
    · exact .refl _
    · exact .of_child hc h

/-- A search that succeeds has found a node. -/
theorem exists_within {p : Statement → Bool} (s : Statement) (h : s.anyNode p = true) :
    ∃ t, t.Within s ∧ p t = true := by
  rw [anyNode_eq, Bool.or_eq_true, anyNodeOf_eq_any, List.any_eq_true] at h
  rcases h with h | ⟨c, hc, h⟩
  · exact ⟨s, .refl s, h⟩
  · have := sizeOf_lt_of_mem_children hc
    obtain ⟨t, ht, hp⟩ := exists_within c h
    exact ⟨t, ht.of_child hc, hp⟩
termination_by sizeOf s

/-- **Searching is looking at the nodes.** -/
theorem anyNode_iff {p : Statement → Bool} {s : Statement} :
    s.anyNode p = true ↔ ∃ t, t.Within s ∧ p t = true := by
  refine ⟨exists_within s, ?_⟩
  rintro ⟨t, ht, hp⟩
  -- The induction goes up from the node to the root.
  induction ht using Relation.ReflTransGen.head_induction_on with
  | refl => rw [anyNode_eq, hp, Bool.true_or]
  | head hc _ ih =>
      rw [anyNode_eq, anyNodeOf_eq_any, Bool.or_eq_true, List.any_eq_true]
      exact .inr ⟨_, hc, ih⟩

/-- A search that fails is one in which no node fits. -/
theorem anyNode_eq_false {p : Statement → Bool} {s : Statement} :
    s.anyNode p = false ↔ ∀ t, t.Within s → p t = false := by
  simp only [← Bool.not_eq_true, anyNode_iff, not_exists, not_and]

/-- A tree has a node with a property if it has one with a stronger property. -/
theorem anyNode_mono {p q : Statement → Bool} (h : ∀ s, p s = true → q s = true) {s : Statement}
    (hs : s.anyNode p = true) : s.anyNode q = true := by
  obtain ⟨t, ht, hp⟩ := anyNode_iff.mp hs
  exact anyNode_iff.mpr ⟨t, ht, h t hp⟩

end Statement

/-! ### Leaves -/

/-- The leaves of a list are those of its statements. -/
theorem mem_leavesOf {items : List Statement} {t : Statement} :
    t ∈ leavesOf items ↔ ∃ s ∈ items, t ∈ s.leaves := by
  induction items with
  | nil => simp [leavesOf]
  | cons s rest ih => simp [leavesOf, ih]

/-- The leaves of two lists in a row. -/
@[simp] theorem leavesOf_append (xs ys : List Statement) :
    leavesOf (xs ++ ys) = leavesOf xs ++ leavesOf ys := by
  induction xs with
  | nil => rfl
  | cons x xs ih => rw [List.cons_append, leavesOf, leavesOf, ih, List.append_assoc]

/-- A list of statements none of which is a list is spliced already. -/
theorem leavesOf_eq {items : List Statement} (h : ∀ s ∈ items, s.leaves = [s]) :
    leavesOf items = items := by
  induction items with
  | nil => rfl
  | cons s rest ih =>
      rw [leavesOf, h s List.mem_cons_self, ih fun t ht => h t (List.mem_cons_of_mem _ ht)]
      rfl

/-- A leaf of statements is within one of them, and it is not a list. -/
theorem within_of_mem_leavesOf {items : List Statement} {t : Statement}
    (h : t ∈ leavesOf items) : t.isList = false ∧ ∃ s ∈ items, t.Within s := by
  induction items using leavesOf.induct
    (fun s => t ∈ s.leaves → t.isList = false ∧ t.Within s) with
  | case1 items ih h =>
      obtain ⟨hlist, s, hs, ht⟩ := ih (by rwa [Statement.leaves] at h)
      exact ⟨hlist, ht.of_child hs⟩
  | case2 s hs h =>
      cases s with
      | list items => exact absurd rfl (hs items)
      | _ =>
          obtain rfl := List.mem_singleton.mp h
          exact ⟨rfl, .refl _⟩
  | case3 => exact absurd h List.not_mem_nil
  | case4 s rest ih ihrest =>
      rw [leavesOf, List.mem_append] at h
      rcases h with h | h
      · obtain ⟨hlist, ht⟩ := ih h
        exact ⟨hlist, s, List.mem_cons_self, ht⟩
      · obtain ⟨hlist, u, hu, ht⟩ := ihrest h
        exact ⟨hlist, u, List.mem_cons_of_mem _ hu, ht⟩

end Stimulus
