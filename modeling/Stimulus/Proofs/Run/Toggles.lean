import Mathlib.Data.List.Flatten
import Stimulus.Proofs.Run.Loops

/-!
# The toggles of a variable in a flow

The toggles of a variable that a script holds stand in the states of its flow in the order of the
script. They can be numbered by how many stand before them, but a flow does not follow its states in
order: a tail may lead back, and it may leave states out. As long as neither a loop nor a
conditional of the script holds a toggle, no tail leads past one in either direction.

## Main definitions

* `togglesOf`: the toggles of a variable in a script, with the labels of the marks.
* `steadyToggles`: how many of them come before all loops and conditionals with toggles.
* `Sequence.ahead`: how many toggles stand in the first states of a flow.

## Main results

* `length_togglesOf`: the toggles of a script are those among its plain statements.
* `Sequence.Layout.ahead_leads`: a tail leads past no steady toggle.
-/

namespace Stimulus

open Sequence

/-! ### Toggles of scripts -/

/-- A command toggles a variable. -/
def Command.toggles (x : String) : Command → Bool
  | .toggle y => y = x
  | _ => false

/-- A statement is a command that toggles a variable. -/
def Statement.toggles (x : String) : Statement → Bool
  | .command c => c.toggles x
  | _ => false

/-- A command that toggles a variable has no label. -/
def Command.togglesOf (x : String) (c : Command) : List (Option String) :=
  if c.toggles x then [none] else []

mutual

/-- The toggles of a variable in a statement of a script, in order. Those of marks have labels.
Blocks under trusted heads are not looked into. -/
def Statement.togglesOf (x : String) : Statement → List (Option String)
  | .command c => c.togglesOf x
  | .list items => Stimulus.togglesOf x items
  | .branch _ yes no => Stimulus.togglesOf x yes ++ Stimulus.togglesOf x no
  | .block (.repeatLoop _) body => Stimulus.togglesOf x body
  | .block (.whileLoop _) body => Stimulus.togglesOf x body
  | .block (.forLoop start _ next) body =>
    start.togglesOf x ++ Stimulus.togglesOf x body ++ next.togglesOf x
  | .block (.raw _) _ => []
  | .block (.onEvent _) _ => []
  | .select _ _ => []
  | .step (.delay _) => []
  | .step (.signal _) => []
  | .step (.mark state label) => if state.name = x then [some label] else []

/-- The toggles of a variable in a script, in order. Those of marks have labels. -/
def togglesOf (x : String) : List Statement → List (Option String)
  | [] => []
  | s :: rest => s.togglesOf x ++ togglesOf x rest

end

/-- A statement is a loop or a conditional. -/
def Statement.governs : Statement → Bool
  | .branch .. => true
  | .block (.raw _) _ => false
  | .block .. => true
  | _ => false

/-- How many toggles of a variable come in some statements before the first loop or conditional that
holds one. -/
def steadyOf (x : String) : List Statement → Nat
  | [] => 0
  | s :: rest =>
    if s.governs && !(s.togglesOf x).isEmpty then 0 else (s.togglesOf x).length + steadyOf x rest

/-- **How many toggles of a script are steady**: those before the first loop or conditional that
holds one. -/
def steadyToggles (x : String) (items : List Statement) : Nat :=
  steadyOf x (leavesOf items)

section Scripts

variable {x : String}

/-- The toggles of two scripts in a row. -/
@[simp] theorem togglesOf_append (xs ys : List Statement) :
    togglesOf x (xs ++ ys) = togglesOf x xs ++ togglesOf x ys := by
  induction xs with
  | nil => rfl
  | cons s xs ih => simp only [List.cons_append, togglesOf, ih, List.append_assoc]

/-- A command by itself holds its toggle. -/
theorem Command.length_togglesOf (c : Command) :
    (c.togglesOf x).length = [Statement.command c].countP (Statement.toggles x) := by
  rw [Command.togglesOf, List.countP_singleton, Statement.toggles]
  cases c.toggles x <;> rfl

/-- **The toggles of a script** are those among its plain statements. -/
theorem length_togglesOf (items : List Statement) :
    (togglesOf x items).length = (plainOf items).countP (Statement.toggles x) := by
  induction items using togglesOf.induct x
    (fun s => (s.togglesOf x).length = s.plain.countP (Statement.toggles x)) with
  | case1 c => exact c.length_togglesOf
  | case2 items ih => rw [Statement.togglesOf, Statement.plain_list, ih]
  | case3 condition yes no ihyes ihno =>
      rw [Statement.togglesOf, Statement.plain_branch, List.length_append, List.countP_append,
        ihyes, ihno]
  | case4 count body ih =>
      rw [Statement.togglesOf, ih]
      simp [Statement.plain, Statement.parts, Part.plain?, plainOf]
  | case5 condition body ih =>
      rw [Statement.togglesOf, ih]
      simp [Statement.plain, Statement.parts, Part.plain?, plainOf]
  | case6 start condition next body ih =>
      have hplain : (Statement.block (.forLoop start condition next) body).plain
          = [.command start] ++ plainOf body ++ [.command next] := by
        simp [Statement.plain, Statement.parts, Part.plain?, plainOf]
      rw [Statement.togglesOf, hplain, List.length_append, List.length_append,
        List.countP_append, List.countP_append, ih, start.length_togglesOf, next.length_togglesOf]
  | case7 | case8 | case9 | case10 | case11 => rfl
  | case12 state label hstate =>
      have hplain : (Statement.step (.mark state label)).plain = [.command state.toggle] := rfl
      rw [Statement.togglesOf, hplain, List.countP_singleton]
      simp [hstate, Statement.toggles, Variable.toggle, Command.toggles]
  | case13 state label hstate =>
      have hplain : (Statement.step (.mark state label)).plain = [.command state.toggle] := rfl
      rw [Statement.togglesOf, hplain, List.countP_singleton]
      simp [hstate, Statement.toggles, Variable.toggle, Command.toggles]
  | case14 => rfl
  | case15 s rest ih ihrest =>
      rw [togglesOf, plainOf_cons, List.length_append, List.countP_append, ih, ihrest]

end Scripts

namespace Sequence

/-! ### Toggles of flows -/

/-- A piece of work toggles a variable. -/
def Work.toggles (x : String) : Work → Bool
  | .placed s => s.toggles x
  | .counting _ => false

/-- How many pieces of work toggle a variable. -/
def slots (x : String) (ws : List Work) : Nat :=
  ws.countP (Work.toggles x)

/-- How many toggles of a variable stand in the first states of a flow. -/
def ahead (x : String) (states : List State) (k : Nat) : Nat :=
  slots x ((states.take k).flatMap (·.work))

section Ahead

variable {x : String}

/-- Work that follows other work. -/
@[simp] theorem slots_append (ws more : List Work) :
    slots x (ws ++ more) = slots x ws + slots x more :=
  List.countP_append

/-- The pieces of work that toggle a variable are statements of the script. -/
theorem slots_eq (ws : List Work) :
    slots x ws = (ws.filterMap (·.user?)).countP (Statement.toggles x) := by
  induction ws with
  | nil => rfl
  | cons w ws ih =>
      rw [← List.singleton_append, slots_append, ih, List.filterMap_append, List.countP_append]
      cases w with
      | placed s => rfl
      | counting c => rfl

/-- No toggles stand before the first state. -/
@[simp] theorem ahead_zero (states : List State) : ahead x states 0 = 0 :=
  rfl

/-- The toggles up to and with a state. -/
theorem ahead_succ {states : List State} {k : Nat} {s : State} (h : states[k]? = some s) :
    ahead x states (k + 1) = ahead x states k + slots x s.work := by
  rw [ahead, ahead, List.take_add_one, h, Option.toList_some, List.flatMap_append,
    List.flatMap_singleton, slots_append]

/-- More states hold more toggles. -/
theorem ahead_mono (states : List State) {k l : Nat} (h : k ≤ l) :
    ahead x states k ≤ ahead x states l := by
  have hsub : (states.take k).Sublist (states.take l) := List.take_sublist_take_left h
  exact (hsub.flatMap _).countP_le

/-- The toggles in the first part of a flow. -/
theorem ahead_append_left (xs ys : List State) {k : Nat} (h : k ≤ xs.length) :
    ahead x (xs ++ ys) k = ahead x xs k := by
  rw [ahead, ahead, List.take_append_of_le_length h]

/-- The toggles up to a state in the second part of a flow. -/
theorem ahead_append_right (xs ys : List State) {k : Nat} (h : xs.length ≤ k) :
    ahead x (xs ++ ys) k = slots x (xs.flatMap (·.work)) + ahead x ys (k - xs.length) := by
  rw [ahead, ahead, List.take_append, List.take_of_length_le h, List.flatMap_append, slots_append]

/-- The toggles in all states of a flow. -/
theorem ahead_length (states : List State) :
    ahead x states states.length = slots x (states.flatMap (·.work)) := by
  rw [ahead, List.take_length]

end Ahead

/-! ### Tails lead past no steady toggle -/

section Layout

variable {x : String} {number : Event → Nat} {base : Nat} {pending : List Work}
  {items : List Statement} {counters : List String} {f : Fragment}

/-- A tail leads past no toggle of some steady ones: as far as these are concerned, as many stand
before the state that it leads to as before the next one. -/
def Passes (x : String) (base steady : Nat) (states : List State) : Prop :=
  ∀ i j, Edge base states i j →
    min (ahead x states (j - base)) steady = min (ahead x states (i + 1 - base)) steady

/-- **A statement that is laid out by itself**, in front of others. If it holds toggles and is a
loop or a conditional, none of its toggles is steady and neither are those behind it. -/
theorem Layout.passes_andThen {s : Statement} {rest : List Statement} {ds : List String}
    {g : Fragment} (h : Layout number base pending [s] counters f) (hpending : f.pending = [])
    (hhead : ∃ head more, f.closed = head :: more ∧ slots x pending ≤ slots x head.work)
    (hsteady : s.togglesOf x = [] ∨ s.governs = true)
    (hg : Layout number (base + f.closed.length) [] rest ds g)
    (ih : Passes x (base + f.closed.length) (steadyOf x (leavesOf rest)) g.closed) :
    Passes x base (slots x pending + steadyOf x (s :: leavesOf rest)) (f.andThen g).closed := by
  -- The states of the statement hold what was pending and its own toggles.
  have htotal : slots x (f.closed.flatMap (·.work)) = slots x pending + (s.togglesOf x).length := by
    have huser := congrArg (List.countP (Statement.toggles x)) h.user_eq
    rw [List.countP_append, ← slots_eq, ← slots_eq, ← length_togglesOf, Fragment.work, hpending,
      List.append_nil, togglesOf, togglesOf, List.append_nil] at huser
    exact huser
  have hfirst {k : Nat} (hk : 0 < k) : slots x pending ≤ ahead x f.closed k := by
    obtain ⟨head, more, hclosed, hhead⟩ := hhead
    refine Nat.le_trans ?_ (ahead_mono _ hk)
    rw [hclosed, ahead_succ (s := head) rfl, ahead_zero, Nat.zero_add]
    exact hhead
  have hlast {k : Nat} (hk : k ≤ f.closed.length) :
      ahead x f.closed k ≤ slots x pending + (s.togglesOf x).length := by
    rw [← htotal, ← ahead_length]
    exact ahead_mono _ hk
  have hcons : steadyOf x (s :: leavesOf rest) = if (s.togglesOf x).length = 0
      then steadyOf x (leavesOf rest) else 0 := by
    rw [steadyOf]
    rcases hsteady with hnone | hgoverns
    · simp [hnone]
    · cases hnone : s.togglesOf x with
      | nil => simp
      | cons t ts => simp [hgoverns]
  intro i j hedge
  rw [hcons]
  rcases (edge_append ..).mp hedge with hedge | hedge
  · -- Within the statement all that is pending has been passed, and nothing behind it.
    have hj := h.lt_of_edge hedge
    have hj' := h.sound.within i j hedge
    obtain ⟨k, t, ht, rfl, -⟩ := hedge
    have hk := (List.getElem?_eq_some_iff.mp ht).1
    rw [Fragment.andThen, ahead_append_left _ _ (by omega), ahead_append_left _ _ (by omega)]
    have h₁ := hfirst (k := j - base) (by omega)
    have h₂ := hlast (k := j - base) (by omega)
    have h₃ := hfirst (k := base + k + 1 - base) (by omega)
    have h₄ := hlast (k := base + k + 1 - base) (by omega)
    split <;> omega
  · have hj := hg.lt_of_edge hedge
    have hrest := ih i j hedge
    obtain ⟨k, t, ht, rfl, -⟩ := hedge
    rw [Fragment.andThen, ahead_append_right _ _ (by omega), ahead_append_right _ _ (by omega),
      htotal, Nat.sub_sub, Nat.sub_sub]
    split <;> omega

/-- Where states start and how many toggles are steady may be written in another way. -/
theorem Passes.of_eq {base base' steady steady' : Nat} {states : List State}
    (h : Passes x base steady states) (hbase : base = base') (hsteady : steady = steady') :
    Passes x base' steady' states := by
  subst hbase hsteady
  exact h

/-- What is placed in a state is neither a list nor a loop nor a conditional. -/
theorem leaf_of_placed? {s t : Statement} (h : s.placed? = some t) :
    s.leaves = [s] ∧ s.governs = false ∧
      (s.togglesOf x).length = slots x [.placed t] := by
  have hlength := length_togglesOf (x := x) [s]
  rw [togglesOf, togglesOf, List.append_nil, plainOf_cons, Statement.plain_of_placed? h] at hlength
  unfold Statement.placed? at h
  split at h
  all_goals cases h
  all_goals exact ⟨rfl, rfl, hlength⟩

/-- What waits is no list, and it toggles nothing. -/
theorem leaf_of_waitTail? {s : Statement} {next : Nat} {tail : Tail}
    (h : s.waitTail? number next = some tail) : s.leaves = [s] ∧ s.togglesOf x = [] := by
  unfold Statement.waitTail? at h
  split at h
  all_goals cases h
  all_goals exact ⟨rfl, rfl⟩

/-- A loop is a leaf that governs others. -/
theorem LoopShape.leaf {s : Statement} {prepare next : List Work} {condition : Expr .bool}
    {body : List Statement} {own : List String}
    (h : LoopShape s prepare condition next body own) :
    s.leaves = [s] ∧ s.governs = true := by
  cases h <;> exact ⟨rfl, rfl⟩

/-- A leaf comes first. -/
theorem steadyToggles_cons {s : Statement} (h : s.leaves = [s]) (rest : List Statement) :
    steadyToggles x (s :: rest) = steadyOf x (s :: leavesOf rest) := by
  rw [steadyToggles, leavesOf, h, List.singleton_append]

/-- **Within the layout of a script** no tail leads past a steady toggle. The induction is on the
layout: a tail that does not lead to the next state belongs to a loop or a conditional. -/
theorem Layout.passes (h : Layout number base pending items counters f) :
    Passes x base (slots x pending + steadyToggles x items) f.closed := by
  have hnil : slots x [] = 0 := rfl
  induction h with
  | nil => exact fun i j hedge => absurd hedge (edge_nil ..).mp
  | list _ ih =>
      refine ih.of_eq rfl ?_
      rw [steadyToggles, steadyToggles, leavesOf_append, leavesOf, Statement.leaves]
  | work ht _ ih =>
      obtain ⟨hleaf, hgoverns, hlength⟩ := leaf_of_placed? (x := x) ht
      refine ih.of_eq rfl ?_
      rw [steadyToggles_cons hleaf, steadyOf, hgoverns, Bool.false_and, if_neg Bool.false_ne_true,
        hlength, slots_append, steadyToggles, Nat.add_assoc]
  | @wait base pending s tail rest counters g ht hg ih =>
      obtain ⟨hleaf, hnone⟩ := leaf_of_waitTail? (x := x) ht
      have hs : Layout number base pending [s] [] (Fragment.closing pending tail) := by
        have h : Layout number base pending [s] [] _ := .wait ht .nil
        rwa [Fragment.andThen_nil rfl] at h
      rw [steadyToggles_cons hleaf]
      refine hs.passes_andThen rfl ⟨_, _, rfl, Nat.le_refl _⟩ (.inl hnone) hg (ih.of_eq rfl ?_)
      rw [hnil, Nat.zero_add, steadyToggles]
  | when hyes hg _ ih =>
      rw [steadyToggles_cons rfl]
      refine (Layout.conditional hyes).passes_andThen rfl ⟨_, _, rfl, Nat.le_refl _⟩
        (.inr rfl) (hg.at_base ?_) (ih.of_eq ?_ ?_)
      · rw [Fragment.length_when]
        omega
      · rw [Fragment.length_when]
        omega
      · rw [hnil, Nat.zero_add, steadyToggles]
  | either hne hyes hno hg _ _ ih =>
      rw [steadyToggles_cons rfl]
      refine (Layout.alternative hne hyes hno).passes_andThen rfl ⟨_, _, rfl, Nat.le_refl _⟩
        (.inr rfl) (hg.at_base ?_) (ih.of_eq ?_ ?_)
      · rw [Fragment.length_either]
        omega
      · rw [Fragment.length_either]
        omega
      · rw [hnil, Nat.zero_add, steadyToggles]
  | loop hshape hbody hg _ ih =>
      obtain ⟨hleaf, hgoverns⟩ := hshape.leaf
      rw [steadyToggles_cons hleaf]
      have hpending (pending prepare : List Work) :
          slots x pending ≤ slots x (pending ++ prepare) := by
        rw [slots_append]
        exact Nat.le_add_right _ _
      refine (Layout.rounds hshape hbody).passes_andThen rfl ⟨_, _, rfl, hpending _ _⟩
        (.inr hgoverns) (hg.at_base ?_) (ih.of_eq ?_ ?_)
      · rw [Fragment.length_loop]
        omega
      · rw [Fragment.length_loop]
        omega
      · rw [hnil, Nat.zero_add, steadyToggles]

/-- **A tail leads past no steady toggle** of a script. -/
theorem Layout.ahead_leads (h : Layout number 0 [] items counters f) {i j : Nat}
    (hleads : f.finish.Leads i j) :
    min (ahead x f.finish j) (steadyToggles x items)
      = min (ahead x f.finish (i + 1)) (steadyToggles x items) := by
  have hpasses : Passes x 0 (steadyToggles x items) f.closed :=
    h.passes.of_eq rfl (Nat.zero_add _)
  have hclosed (states : List State) (hedge : Edge 0 f.closed i j) :
      min (ahead x (f.closed ++ states) j) (steadyToggles x items)
        = min (ahead x (f.closed ++ states) (i + 1)) (steadyToggles x items) := by
    have hj := h.sound.within i j hedge
    have hmin := hpasses i j hedge
    obtain ⟨k, t, ht, rfl, -⟩ := hedge
    have hk := (List.getElem?_eq_some_iff.mp ht).1
    rw [ahead_append_left _ _ (by omega), ahead_append_left _ _ (by omega)]
    simpa using hmin
  have hedge : Edge 0 f.finish i j := by simpa [Flow.Leads, Edge] using hleads
  revert hedge
  unfold Fragment.finish
  split
  · intro hedge
    rcases (edge_append ..).mp hedge with hedge | hedge
    · exact hclosed _ hedge
    · simp [Tail.targets] at hedge
  · -- The state with pending work leads to the next one.
    intro hedge
    rcases (edge_append ..).mp hedge with hedge | hedge
    · exact hclosed _ hedge
    · simp only [edge_cons, edge_nil, Tail.targets, List.mem_singleton, List.not_mem_nil,
        and_false, or_false] at hedge
      obtain ⟨rfl, rfl⟩ := hedge
      rw [Nat.zero_add]

/-- Splicing lists leaves the toggles as they are. -/
theorem togglesOf_leavesOf (items : List Statement) :
    togglesOf x (leavesOf items) = togglesOf x items := by
  have single (s : Statement) : togglesOf x [s] = s.togglesOf x := by
    rw [togglesOf, togglesOf, List.append_nil]
  induction items using leavesOf.induct
    (fun s => togglesOf x s.leaves = s.togglesOf x) with
  | case1 items ih => rw [Statement.leaves, ih, Statement.togglesOf]
  | case2 s hs =>
      rw [Statement.leaves, single]
      exact hs
  | case3 => rfl
  | case4 s rest ih ihrest => rw [leavesOf, togglesOf_append, ih, ihrest, togglesOf]

/-- There are at least as many toggles in a script as steady ones. -/
theorem steadyToggles_le (items : List Statement) :
    steadyToggles x items ≤ (togglesOf x items).length := by
  rw [steadyToggles, ← togglesOf_leavesOf]
  generalize leavesOf items = leaves
  induction leaves with
  | nil => exact Nat.le_refl _
  | cons s rest ih =>
      rw [steadyOf, togglesOf, List.length_append]
      split
      · exact Nat.zero_le _
      · omega

/-- **The flow of a script** holds the toggles of the script, all of them before its last state. -/
theorem Layout.ahead_last (h : Layout number 0 [] items counters f) :
    ahead x f.finish (f.finish.length - 1) = (togglesOf x items).length := by
  have hfinish := h.complete.finish
  have hlast : f.finish.length - 1 + 1 = f.finish.length :=
    Nat.succ_pred_eq_of_pos (Nat.zero_lt_of_lt (List.getElem?_eq_some_iff.mp hfinish).1)
  have hsucc : ahead x f.finish f.finish.length = ahead x f.finish (f.finish.length - 1) := by
    have := ahead_succ (x := x) hfinish
    rwa [hlast] at this
  rw [← hsucc, ahead_length, Fragment.finish_work, slots_eq, h.user_eq, length_togglesOf]
  rfl

end Layout

end Sequence

end Stimulus
