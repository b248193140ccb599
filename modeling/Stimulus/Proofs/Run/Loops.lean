import Mathlib.Data.List.Forall2
import Stimulus.Proofs.Run.Stance

/-!
# Counting loops in flows

A counting loop of a script is laid out as a head, which resets the counter of the loop, a test, the
states of the body and a state that counts the round. Every loop has a place of its own in the flow,
and no state of its body touches its counter but the one that counts the round.

## Main definitions

* `repeatsOf`: the counting loops of a script.
* `Sequence.LoopAt`: a counting loop at its place in a flow.

## Main results

* `Sequence.Layout.loops`: every counting loop of a script has a place and a counter of its own.
* `Sequence.LoopAt.within`, `Sequence.LoopAt.counts`: where the states of a body lead, and what they
  make of the counter.
-/

namespace Stimulus

open Sequence

/-! ### Counting loops -/

mutual

/-- The counting loops in a statement of a script, each with its count and its body, in order. -/
def Statement.repeats : Statement → List (Expr .integer × List Statement)
  | .list items => repeatsOf items
  | .branch _ yes no => repeatsOf yes ++ repeatsOf no
  | .block (.repeatLoop count) body => (count, body) :: repeatsOf body
  | .block (.whileLoop _) body => repeatsOf body
  | .block (.forLoop ..) body => repeatsOf body
  | _ => []

/-- The counting loops in a script, each with its count and its body, in order. -/
def repeatsOf : List Statement → List (Expr .integer × List Statement)
  | [] => []
  | s :: rest => s.repeats ++ repeatsOf rest

end

/-- The counting loops of two scripts in a row. -/
@[simp] theorem repeatsOf_append (xs ys : List Statement) :
    repeatsOf (xs ++ ys) = repeatsOf xs ++ repeatsOf ys := by
  induction xs with
  | nil => rfl
  | cons x xs ih => simp only [List.cons_append, repeatsOf, ih, List.append_assoc]

/-- The count of a counting loop is a part of the script. -/
theorem count_mem_partsOf {items : List Statement} {r : Expr .integer × List Statement}
    (h : r ∈ repeatsOf items) : Part.count r.1 ∈ partsOf items := by
  induction items using repeatsOf.induct
    (fun s => r ∈ s.repeats → Part.count r.1 ∈ s.parts) with
  | case1 items ih h =>
      rw [Statement.repeats] at h
      rw [Statement.parts]
      exact ih h
  | case2 condition yes no ihyes ihno h =>
      rw [Statement.repeats, List.mem_append] at h
      rw [Statement.parts]
      rcases h with h | h
      · exact List.mem_append_left _ (List.mem_cons_of_mem _ (ihyes h))
      · exact List.mem_append_right _ (ihno h)
  | case3 count body ih h =>
      rw [Statement.repeats, List.mem_cons] at h
      rw [Statement.parts]
      rcases h with rfl | h
      · exact List.mem_cons_self
      · exact List.mem_cons_of_mem _ (ih h)
  | case4 condition body ih h =>
      rw [Statement.repeats] at h
      rw [Statement.parts]
      exact List.mem_cons_of_mem _ (ih h)
  | case5 start condition next body ih h =>
      rw [Statement.repeats] at h
      rw [Statement.parts]
      exact List.mem_append_left _ (List.mem_cons_of_mem _ (List.mem_cons_of_mem _ (ih h)))
  | case6 s h₁ h₂ h₃ h₄ h₅ h =>
      rw [Statement.repeats] at h
      · exact absurd h List.not_mem_nil
      all_goals assumption
  | case7 => exact absurd h List.not_mem_nil
  | case8 s rest ih ihrest =>
      rw [repeatsOf, List.mem_append] at h
      rw [partsOf]
      exact List.mem_append.mpr (h.imp ih ihrest)

/-- What is placed in a state has no counting loop. -/
theorem Statement.repeats_of_placed? {s t : Statement} (h : s.placed? = some t) :
    s.repeats = [] := by
  unfold placed? at h
  split at h
  all_goals cases h
  all_goals rfl

/-- What waits has no counting loop. -/
theorem Statement.repeats_of_waitTail? {number : Event → Nat} {next : Nat} {s : Statement}
    {tail : Tail} (h : s.waitTail? number next = some tail) : s.repeats = [] := by
  unfold waitTail? at h
  split at h
  all_goals cases h
  all_goals rfl

namespace Sequence

/-! ### Places of loops -/

/-- **A counting loop at its place in a flow.** The states `head` and `head + 1` are its head and
its test. The states of the body follow, and the round is counted in state `last`. -/
structure LoopAt (number : Event → Nat) (flow : Flow) (x : String) (count : Expr .integer)
    (body : List Statement) (head last : Nat) : Prop where
  resets : ∃ work, flow[head]?
    = some ⟨work ++ [.counting (.assign x ⟨_, .integer 0⟩)], .jump (head + 1)⟩
  tests : flow[head + 1]?
    = some ⟨[], .branch (Expr.comparison .lt rfl (.ident x) count) (head + 2) (last + 1)⟩
  body : ∃ counters b, Layout number (head + 2) [] body counters b ∧
    Placed flow (head + 2) b.closed ∧ x ∉ counters ∧ last = head + 2 + b.closed.length ∧
    flow[last]? = some ⟨b.pending ++ [.counting (.increment x)], .jump (head + 1)⟩

/-- **Every counting loop has a place** in the flow and a counter of its own. The induction is on the
layout, whose counters come in the order of the loops. -/
theorem Layout.loops {number : Event → Nat} {flow : Flow} {base : Nat} {pending : List Work}
    {items : List Statement} {counters : List String} {f : Fragment}
    (h : Layout number base pending items counters f) (hnodup : counters.Nodup)
    (hplaced : Placed flow base f.closed) :
    List.Forall₂ (fun x r => ∃ head last, LoopAt number flow x r.1 r.2 head last) counters
      (repeatsOf items) := by
  induction h with
  | nil => exact .nil
  | list _ ih =>
      rw [repeatsOf, Statement.repeats, ← repeatsOf_append]
      exact ih hnodup hplaced
  | work ht _ ih =>
      rw [repeatsOf, Statement.repeats_of_placed? ht]
      exact ih hnodup hplaced
  | wait ht _ ih =>
      rw [repeatsOf, Statement.repeats_of_waitTail? ht]
      exact ih hnodup (Placed.cons hplaced).2
  | when _ _ ihyes ih =>
      obtain ⟨-, hyes, -, hrest⟩ := hplaced.when
      obtain ⟨hcs, hds, -⟩ := List.nodup_append.mp hnodup
      rw [repeatsOf, Statement.repeats]
      refine List.rel_append ?_ (ih hds hrest)
      rw [repeatsOf, List.append_nil]
      exact ihyes hcs hyes
  | either _ _ _ _ ihyes ihno ih =>
      obtain ⟨-, hyes, -, hno, -, hrest⟩ := hplaced.either
      obtain ⟨hbranches, hes, -⟩ := List.nodup_append.mp hnodup
      obtain ⟨hcs, hds, -⟩ := List.nodup_append.mp hbranches
      rw [repeatsOf, Statement.repeats]
      exact List.rel_append (List.rel_append (ihyes hcs hyes) (ihno hds hno)) (ih hes hrest)
  | loop hshape hbody _ ihbody ih =>
      obtain ⟨hhead, htest, hin, hlast, hrest⟩ := hplaced.loop
      obtain ⟨hloop, hds, -⟩ := List.nodup_append.mp hnodup
      obtain ⟨-, hcs, hfresh⟩ := List.nodup_append.mp hloop
      rw [repeatsOf]
      refine List.rel_append ?_ (ih hds hrest)
      have hinner := ihbody hcs hin
      -- Only a counting loop has a counter, and it comes before those of the body.
      cases hshape with
      | whileLoop condition body =>
          rw [Statement.repeats]
          exact hinner
      | forLoop start condition next body =>
          rw [Statement.repeats]
          exact hinner
      | repeatLoop count body counter =>
          rw [Statement.repeats]
          have hx : counter.name ∉ _ := fun hmem =>
            hfresh _ (List.mem_singleton_self _) _ hmem rfl
          exact .cons ⟨_, _, ⟨_, hhead⟩, htest, _, _, hbody, hin, hx, rfl, hlast⟩ hinner

/-- A tail of a fragment leads behind the first state. -/
theorem Layout.lt_of_edge {number : Event → Nat} {base : Nat} {pending : List Work}
    {items : List Statement} {counters : List String} {f : Fragment}
    (h : Layout number base pending items counters f) {i j : Nat} (hedge : Edge base f.closed i j) :
    base < j := by
  induction h with
  | nil => exact absurd hedge (edge_nil ..).mp
  | list _ ih => exact ih hedge
  | work _ _ ih => exact ih hedge
  | wait htail _ ih =>
      rcases (edge_append ..).mp hedge with hedge | hedge
      · simp only [Fragment.closing, edge_cons, edge_nil, or_false, targets_of_waitTail? htail,
          List.mem_singleton] at hedge
        omega
      · exact Nat.lt_of_succ_lt (ih hedge)
  | when _ _ ihyes ih =>
      rcases (edge_append ..).mp hedge with hedge | hedge
      · rcases (Fragment.edge_when ..).mp hedge with ⟨-, hj⟩ | hedge | ⟨-, hj⟩
        · omega
        · exact Nat.lt_of_succ_lt (ihyes hedge)
        · omega
      · rw [Fragment.length_when] at hedge
        have := ih (by convert hedge using 1; omega)
        omega
  | either _ _ _ _ ihyes ihno ih =>
      rcases (edge_append ..).mp hedge with hedge | hedge
      · rcases (Fragment.edge_either ..).mp hedge with ⟨-, hj⟩ | hedge | ⟨-, hj⟩ | hedge | ⟨-, hj⟩
        · omega
        · exact Nat.lt_of_succ_lt (ihyes hedge)
        · omega
        · have := ihno hedge
          omega
        · omega
      · rw [Fragment.length_either] at hedge
        have := ih (by convert hedge using 1; omega)
        omega
  | loop _ _ _ ihbody ih =>
      rcases (edge_append ..).mp hedge with hedge | hedge
      · rcases (Fragment.edge_loop ..).mp hedge with ⟨-, hj⟩ | ⟨-, hj⟩ | hedge | ⟨-, hj⟩
        · omega
        · omega
        · have := ihbody hedge
          omega
        · omega
      · rw [Fragment.length_loop] at hedge
        have := ih (by convert hedge using 1; omega)
        omega

/-- Work that keeps other counters leaves a counter alone. -/
theorem tallied_of_notMem {R : Type} {counters : List String} {x : String} {ws : List Work}
    (h : ∀ command, .counting command ∈ ws → Keeps counters command) (hx : x ∉ counters)
    (d : Datum R) : tallied x ws d = d := by
  induction ws generalizing d with
  | nil => rfl
  | cons w ws ih =>
      have hrest := ih (fun command hmem => h command (List.mem_cons_of_mem _ hmem))
      have hfirst : w.tally x d = d := by
        cases w with
        | placed s => rfl
        | counting command =>
            obtain ⟨y, hy, hcommand⟩ := h command List.mem_cons_self
            have hne : y ≠ x := by
              rintro rfl
              exact hx hy
            rcases hcommand with rfl | rfl
            · rw [Work.tally, if_neg hne]
            · cases d with
              | real r => rfl
              | integer n => rw [Work.tally, if_neg hne]
      exact (congrArg (tallied x ws) hfirst).trans (hrest d)

namespace LoopAt

variable {number : Event → Nat} {flow : Flow} {x : String} {count : Expr .integer}
  {body : List Statement} {head last : Nat} (h : LoopAt number flow x count body head last)

include h

/-- The body lies between the test and the exit. -/
theorem entry_le_last : head + 2 ≤ last := by
  obtain ⟨-, b, -, -, -, rfl, -⟩ := h.body
  exact Nat.le_add_right _ _

/-- A state of the body before its last one leads to states of the body and leaves the counter of
the loop alone. -/
theorem within {i : Nat} (hlo : head + 2 ≤ i) (hhi : i < last) :
    ∃ s, flow[i]? = some s ∧ (∀ j ∈ s.tail.targets, head + 2 ≤ j ∧ j ≤ last) ∧
      ∀ {R : Type} (d : Datum R), tallied x s.work d = d := by
  obtain ⟨counters, b, hlayout, hplaced, hx, rfl, -⟩ := h.body
  -- The state is the `k`-th one of the body, which has its own layout.
  obtain ⟨k, rfl⟩ := Nat.exists_eq_add_of_le hlo
  have hk : k < b.closed.length := by omega
  have hstate : b.closed[k]? = some b.closed[k] := List.getElem?_eq_getElem hk
  refine ⟨_, hplaced k _ hstate, fun j hj => ?_, fun d => ?_⟩
  · have hedge : Edge (head + 2) b.closed (head + 2 + k) j := ⟨k, _, hstate, rfl, hj⟩
    exact ⟨Nat.le_of_lt (hlayout.lt_of_edge hedge), hlayout.sound.within _ _ hedge⟩
  · refine tallied_of_notMem (fun command hcommand => ?_) hx d
    have hmem : Work.counting command ∈ b.work :=
      List.mem_append_left _ (List.mem_flatMap.mpr ⟨_, List.getElem_mem hk, hcommand⟩)
    exact (hlayout.counting_mem hmem).resolve_left List.not_mem_nil

/-- The last state of the body counts the round. -/
theorem counts : ∃ work, flow[last]? = some ⟨work, .jump (head + 1)⟩ ∧
    ∀ {R : Type} (n : Int), tallied x work (.integer n : Datum R) = .integer (n + 1) := by
  obtain ⟨counters, b, hlayout, -, hx, -, hlast⟩ := h.body
  refine ⟨_, hlast, fun n => ?_⟩
  have hpending (command : Command) (hmem : .counting command ∈ b.pending) :
      Keeps counters command :=
    (hlayout.counting_mem (List.mem_append_right _ hmem)).resolve_left List.not_mem_nil
  rw [tallied_append, tallied_of_notMem hpending hx]
  simp [tallied, Work.tally]

end LoopAt

end Sequence

end Stimulus
