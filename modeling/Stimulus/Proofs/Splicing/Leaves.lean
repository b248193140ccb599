import Stimulus.Proofs.Statement.Checked
import Stimulus.Sequence.Compile
import Stimulus.Statement.Text

/-!
# What depends on leaves only

A list of statements stands for its leaves. Each reader of statements meets the lists in them in its
own way: the checked constructors splice what they are given, a search goes through lists, the
layout joins their texts, and the compiler goes through them in place. That all of them see the same
leaves is proved here, reader by reader.

## Main results

* `leavesOf_leavesOf`: leaves are spliced.
* `anyNodeOf_leavesOf`: a search that looks for no lists finds the same in the leaves.
* `join_renderEach`: the text of statements is that of their leaves, one after the other.
* `Sequence.compileAll_leavesOf`: statements are compiled as their leaves are.
-/

namespace Stimulus

open Build

/-! ### Leaves -/

/-- A statement that is no list is its only leaf. -/
theorem Statement.leaves_eq_singleton {s : Statement} (h : s.isList = false) : s.leaves = [s] := by
  cases s with
  | list items => cases h
  | _ => rfl

/-- Leaves are spliced. -/
theorem leavesOf_leavesOf (items : List Statement) : leavesOf (leavesOf items) = leavesOf items :=
  leavesOf_eq fun _ ht => Statement.leaves_eq_singleton (within_of_mem_leavesOf ht).1

/-- A statement alone has its leaves. -/
theorem leavesOf_singleton (s : Statement) : leavesOf [s] = s.leaves := by
  rw [leavesOf, leavesOf, List.append_nil]

/-! ### Searching -/

/-- A search that looks for no lists finds the same in the leaves. -/
theorem anyNodeOf_leavesOf {p : Statement → Bool} (hp : ∀ items, p (.list items) = false)
    (items : List Statement) : anyNodeOf p (leavesOf items) = anyNodeOf p items := by
  induction items using leavesOf.induct (fun s => anyNodeOf p s.leaves = s.anyNode p) with
  | case1 items ih => rw [Statement.leaves, ih, Statement.anyNode, hp, Bool.false_or]
  | case2 s hs => rw [Statement.leaves, anyNodeOf, anyNodeOf, Bool.or_false]; exact hs
  | case3 => rfl
  | case4 s rest ih ihrest => rw [leavesOf, anyNodeOf_append, ih, ihrest, anyNodeOf]

/-- A statement is searched in its leaves. -/
theorem Statement.anyNodeOf_leaves {p : Statement → Bool} (hp : ∀ items, p (.list items) = false)
    (s : Statement) : anyNodeOf p s.leaves = s.anyNode p := by
  rw [← leavesOf_singleton, anyNodeOf_leavesOf hp, anyNodeOf, anyNodeOf, Bool.or_false]

/-! ### Texts -/

/-- The texts of leaves, none of which is empty. -/
theorem renderEach_leavesOf (depth : Nat) (items : List Statement) :
    renderEach depth (leavesOf items) = (leavesOf items).map (·.render depth) := by
  have hleaves : ∀ t ∈ leavesOf items, t.isEmpty = false := fun t ht => by
    rw [Statement.isEmpty, Statement.leaves_eq_singleton (within_of_mem_leavesOf ht).1]
    rfl
  generalize leavesOf items = leaves at hleaves
  induction leaves with
  | nil => rfl
  | cons t rest ih =>
      rw [List.forall_mem_cons] at hleaves
      rw [renderEach, hleaves.1, if_neg Bool.false_ne_true, ih hleaves.2, List.map_cons]

/-- **The text of statements** is that of their leaves, one after the other. -/
theorem join_renderEach (depth : Nat) (items : List Statement) :
    String.join (renderEach depth items)
      = String.join ((leavesOf items).map (·.render depth)) := by
  induction items using leavesOf.induct
    (fun s => s.render depth = String.join (s.leaves.map (·.render depth))) with
  | case1 items ih => rw [Statement.leaves, ← ih, Statement.render]
  | case2 s hs =>
      rw [Statement.leaves, List.map_singleton, String.join_cons, String.join_nil,
        String.append_empty]
      exact hs
  | case3 => rfl
  | case4 s rest ih ihrest =>
      rw [renderEach, leavesOf, List.map_append, String.join_append, ← ih, ← ihrest]
      split
      case isTrue hempty =>
        rw [ih, List.isEmpty_iff.mp hempty]
        rfl
      case isFalse => rw [String.join_cons]

/-- The text of a statement is that of its leaves. -/
theorem Statement.render_eq (depth : Nat) (s : Statement) :
    s.render depth = String.join (s.leaves.map (·.render depth)) := by
  cases h : s.isList with
  | true =>
      cases s with
      | list items => rw [render, leaves, join_renderEach]
      | _ => cases h
  | false =>
      rw [leaves_eq_singleton h, List.map_singleton, String.join_cons, String.join_nil,
        String.append_empty]

/-! ### Compilation -/

namespace Sequence

/-- Statements one after the other are compiled one after the other. -/
theorem compileAll_append (index base : Nat) (pending : List Work) (xs ys : List Statement) :
    compileAll index base pending (xs ++ ys) = (do
      let f ← compileAll index base pending xs
      let g ← compileAll index (base + f.closed.length) f.pending ys
      return ⟨f.closed ++ g.closed, g.pending⟩) := by
  induction xs generalizing base pending with
  | nil =>
      rw [List.nil_append, compileAll, pure_bind]
      exact (bind_pure _).symm
  | cons s rest ih =>
      rw [List.cons_append, compileAll, compileAll]
      simp only [ih, bind_assoc, pure_bind, List.length_append, Nat.add_assoc, List.append_assoc]

/-- A statement alone is compiled as it is. -/
theorem compileAll_singleton (index base : Nat) (pending : List Work) (s : Statement) :
    compileAll index base pending [s] = compile index base pending s := by
  simp only [compileAll, pure_bind, List.append_nil]
  exact bind_pure _

/-- **Statements are compiled as their leaves are.** -/
theorem compileAll_leavesOf (index base : Nat) (pending : List Work) (items : List Statement) :
    compileAll index base pending (leavesOf items) = compileAll index base pending items := by
  induction items using leavesOf.induct (fun s => ∀ base pending,
    compileAll index base pending s.leaves = compile index base pending s)
    generalizing base pending with
  | case1 items ih => rw [Statement.leaves, ih, compile]
  | case2 s hs =>
      rw [Statement.leaves, compileAll_singleton]
      exact hs
  | case3 => rfl
  | case4 s rest ih ihrest =>
      rw [leavesOf, compileAll_append, compileAll]
      simp only [ih, ihrest]

end Sequence

end Stimulus
