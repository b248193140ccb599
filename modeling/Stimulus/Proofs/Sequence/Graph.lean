import Mathlib.Logic.Relation
import Stimulus.Proofs.History
import Stimulus.Proofs.Sequence.Ending

/-!
# The graph of a flow

The tails of a flow make a graph of its states. For a compiled script this graph is closed and
complete: no tail leads out of the flow, every state can be reached from the first one, and the
state that finishes the simulation can be reached from every state. The same graph can be read off
the statements of the case that runs the script.

A fragment is the graph of a part of a script. It is entered in its first state and left for the
state that is open after it, so the invariant of an induction over a layout speaks about paths
between these two (`Sequence.Fragment.Sound`).

## Main results

* `Sequence.Layout.sound`: the fragment of a laid out script is sound.
* `Sequence.Layout.complete`: the flow of a laid out script is closed and complete.
* `Sequence.Flow.Numbered.leads_iff`: the edges of a flow are those between the arms of its case.
* `Module.sequence_graph`: every sequence that a module accepts is run by a case whose arms make
  such a graph.
-/

namespace Stimulus

namespace Sequence

/-! ### Edges -/

/-- The states are numbered from `base` on, and one of them, `i`, has a tail that may lead
to `j`. -/
def Edge (base : Nat) (states : List State) (i j : Nat) : Prop :=
  ∃ k s, states[k]? = some s ∧ i = base + k ∧ j ∈ s.tail.targets

/-- Some edges lead from `i` to `j`. -/
abbrev Path (base : Nat) (states : List State) : Nat → Nat → Prop :=
  Relation.ReflTransGen (Edge base states)

/-- Without states there are no edges. -/
@[simp] theorem edge_nil (base i j : Nat) : Edge base [] i j ↔ False := by
  simp [Edge]

/-- The edges of a state and those after it. -/
@[simp] theorem edge_cons (base : Nat) (s : State) (states : List State) (i j : Nat) :
    Edge base (s :: states) i j
      ↔ (i = base ∧ j ∈ s.tail.targets) ∨ Edge (base + 1) states i j := by
  constructor
  · rintro ⟨k, t, ht, rfl, hj⟩
    cases k with
    | zero =>
        obtain rfl := Option.some.inj ht
        exact .inl ⟨rfl, hj⟩
    | succ k => exact .inr ⟨k, t, ht, by omega, hj⟩
  · rintro (⟨rfl, hj⟩ | ⟨k, t, ht, rfl, hj⟩)
    · exact ⟨0, s, rfl, rfl, hj⟩
    · exact ⟨k + 1, t, ht, by omega, hj⟩

/-- The edges of two lists of states in a row. -/
@[simp] theorem edge_append (base : Nat) (xs ys : List State) (i j : Nat) :
    Edge base (xs ++ ys) i j ↔ Edge base xs i j ∨ Edge (base + xs.length) ys i j := by
  induction xs generalizing base with
  | nil => simp
  | cons x xs ih =>
      rw [List.cons_append, edge_cons, edge_cons, ih, List.length_cons, or_assoc,
        Nat.add_assoc base, Nat.add_comm 1]

/-- A path among some states is one among more. -/
theorem Path.mono {base base' : Nat} {xs ys : List State}
    (h : ∀ i j, Edge base xs i j → Edge base' ys i j) {i j : Nat} (hp : Path base xs i j) :
    Path base' ys i j :=
  Relation.ReflTransGen.mono h _ _ hp

/-! ### Sound fragments -/

/-- A fragment is **sound** if its tails lead to its states or to the one that is open after it, if
none of them finishes the simulation, and if paths lead from its first state everywhere and from
everywhere to the open state. -/
structure Fragment.Sound (base : Nat) (f : Fragment) : Prop where
  within : ∀ i j, Edge base f.closed i j → j ≤ base + f.closed.length
  unfinished : ∀ s ∈ f.closed, s.tail ≠ .finish
  entry : ∀ i, base ≤ i → i ≤ base + f.closed.length → Path base f.closed base i
  exit : ∀ i, base ≤ i → i ≤ base + f.closed.length →
    Path base f.closed i (base + f.closed.length)

namespace Fragment

/-- A fragment that closes no state is sound. -/
theorem sound_nil (base : Nat) (pending : List Work) : Sound base ⟨[], pending⟩ := by
  refine ⟨by simp, by simp, fun i h h' => ?_, fun i h h' => ?_⟩
  · obtain rfl : i = base := Nat.le_antisymm h' h
    exact .refl
  · obtain rfl : i = base := Nat.le_antisymm h' h
    exact .refl

/-- A sound fragment that goes on with a sound one is sound. -/
theorem Sound.andThen {base : Nat} {f g : Fragment} (hf : f.Sound base)
    (hg : g.Sound (base + f.closed.length)) : (f.andThen g).Sound base := by
  have hleft (i j : Nat) (h : Edge base f.closed i j) : Edge base (f.andThen g).closed i j :=
    (edge_append ..).mpr (.inl h)
  have hright (i j : Nat) (h : Edge (base + f.closed.length) g.closed i j) :
      Edge base (f.andThen g).closed i j :=
    (edge_append ..).mpr (.inr h)
  have hlength : base + (f.andThen g).closed.length
      = base + f.closed.length + g.closed.length := by
    rw [length_andThen, Nat.add_assoc]
  have hend := Nat.le_add_right (base + f.closed.length) g.closed.length
  constructor
  case within =>
      intro i j h
      rw [hlength]
      rcases (edge_append ..).mp h with h | h
      · exact Nat.le_trans (hf.within i j h) hend
      · exact hg.within i j h
  case unfinished =>
      intro s hs
      rcases List.mem_append.mp hs with hs | hs
      · exact hf.unfinished s hs
      · exact hg.unfinished s hs
  case entry =>
      intro i hi hi'
      rw [hlength] at hi'
      -- A state of the second part is reached through the state between the parts.
      rcases Nat.le_total i (base + f.closed.length) with hle | hge
      · exact (hf.entry i hi hle).mono hleft
      · have hmiddle := (hf.entry _ (Nat.le_add_right _ _) (Nat.le_refl _)).mono hleft
        exact hmiddle.trans ((hg.entry i hge hi').mono hright)
  case exit =>
      intro i hi hi'
      rw [hlength] at hi' ⊢
      rcases Nat.le_total i (base + f.closed.length) with hle | hge
      · have hmiddle := (hf.exit i hi hle).mono hleft
        exact hmiddle.trans ((hg.exit _ (Nat.le_refl _) hend).mono hright)
      · exact (hg.exit i hge hi').mono hright

/-- A single state is sound if its tail leads to the next state only. -/
theorem sound_closing {base : Nat} {pending : List Work} {tail : Tail}
    (h : tail.targets = [base + 1]) : (closing pending tail).Sound base := by
  have hedge : Edge base (closing pending tail).closed base (base + 1) := by
    simp [closing, h]
  refine ⟨?_, ?_, fun i hi hi' => ?_, fun i hi hi' => ?_⟩
  · simp [closing, h]
  · simp only [closing, List.mem_singleton, forall_eq]
    rintro rfl
    cases h
  · rcases Nat.eq_or_lt_of_le hi with rfl | hlt
    · exact .refl
    · obtain rfl : i = base + 1 := Nat.le_antisymm hi' hlt
      exact .single hedge
  · rcases Nat.eq_or_lt_of_le hi with rfl | hlt
    · exact .single hedge
    · obtain rfl : i = base + 1 := Nat.le_antisymm hi' hlt
      exact .refl

/-- The edges of a conditional without an alternative. -/
theorem edge_when (base : Nat) (pending : List Work) (condition : Expr .bool) (yes : Fragment)
    (i j : Nat) :
    Edge base (when base pending condition yes).closed i j ↔
      (i = base ∧ (j = base + 1 ∨ j = base + 1 + yes.closed.length + 1)) ∨
        Edge (base + 1) yes.closed i j ∨
        (i = base + 1 + yes.closed.length ∧ j = base + 1 + yes.closed.length + 1) := by
  simp [when, Tail.targets]

/-- A conditional without an alternative is sound if its branch is. -/
theorem Sound.when {base : Nat} {pending : List Work} {condition : Expr .bool} {yes : Fragment}
    (h : yes.Sound (base + 1)) : (when base pending condition yes).Sound base := by
  have hedge := edge_when base pending condition yes
  have hlift (i j : Nat) (he : Edge (base + 1) yes.closed i j) :=
    (hedge i j).mpr (.inr (.inl he))
  have hin := (hedge base (base + 1)).mpr (.inl ⟨rfl, .inl rfl⟩)
  have hpast := (hedge base (base + 1 + yes.closed.length + 1)).mpr (.inl ⟨rfl, .inr rfl⟩)
  have hout := (hedge (base + 1 + yes.closed.length) (base + 1 + yes.closed.length + 1)).mpr
    (.inr (.inr ⟨rfl, rfl⟩))
  have hlength : base + (Fragment.when base pending condition yes).closed.length
      = base + 1 + yes.closed.length + 1 := by
    rw [length_when]
    omega
  constructor
  case within =>
      intro i j he
      rw [hlength]
      rcases (hedge i j).mp he with ⟨-, hj⟩ | he | ⟨-, hj⟩
      · omega
      · have := h.within i j he
        omega
      · omega
  case unfinished =>
      simp only [Fragment.when, List.cons_append, List.mem_cons, List.mem_append,
        List.not_mem_nil, or_false]
      rintro s (rfl | hs | rfl)
      · intro h
        cases h
      · exact h.unfinished s hs
      · intro h
        cases h
  case entry =>
      intro i hi hi'
      rw [hlength] at hi'
      rcases Nat.eq_or_lt_of_le hi with rfl | hi
      · exact .refl
      rcases Nat.eq_or_lt_of_le hi' with rfl | hi'
      · exact .single hpast
      · exact .head hin ((h.entry i hi (Nat.le_of_lt_succ hi')).mono hlift)
  case exit =>
      intro i hi hi'
      rw [hlength] at hi' ⊢
      rcases Nat.eq_or_lt_of_le hi with rfl | hi
      · exact .single hpast
      rcases Nat.eq_or_lt_of_le hi' with rfl | hi'
      · exact .refl
      · exact ((h.exit i hi (Nat.le_of_lt_succ hi')).mono hlift).tail hout

/-- The edges of a conditional with an alternative. -/
theorem edge_either (base : Nat) (pending : List Work) (condition : Expr .bool)
    (yes no : Fragment) (i j : Nat) :
    Edge base (either base pending condition yes no).closed i j ↔
      (i = base ∧ (j = base + 1 ∨ j = base + 1 + yes.closed.length + 1)) ∨
        Edge (base + 1) yes.closed i j ∨
        (i = base + 1 + yes.closed.length ∧
          j = base + 1 + yes.closed.length + 1 + no.closed.length + 1) ∨
        Edge (base + 1 + yes.closed.length + 1) no.closed i j ∨
        (i = base + 1 + yes.closed.length + 1 + no.closed.length ∧
          j = base + 1 + yes.closed.length + 1 + no.closed.length + 1) := by
  simp [either, Tail.targets]

/-- A conditional with an alternative is sound if its branches are. -/
theorem Sound.either {base : Nat} {pending : List Work} {condition : Expr .bool}
    {yes no : Fragment} (hy : yes.Sound (base + 1))
    (hn : no.Sound (base + 1 + yes.closed.length + 1)) :
    (either base pending condition yes no).Sound base := by
  have hedge := edge_either base pending condition yes no
  have hlength : base + (Fragment.either base pending condition yes no).closed.length
      = base + 1 + yes.closed.length + 1 + no.closed.length + 1 := by
    rw [length_either]
    omega
  generalize hother : base + 1 + yes.closed.length + 1 = other at hedge hn hlength
  generalize hjoin : other + no.closed.length + 1 = join at hedge hlength
  have hyes (i j : Nat) (he : Edge (base + 1) yes.closed i j) :=
    (hedge i j).mpr (.inr (.inl he))
  have hno (i j : Nat) (he : Edge other no.closed i j) :=
    (hedge i j).mpr (.inr (.inr (.inr (.inl he))))
  have hin := (hedge base (base + 1)).mpr (.inl ⟨rfl, .inl rfl⟩)
  have helse := (hedge base other).mpr (.inl ⟨rfl, .inr rfl⟩)
  have hyesOut := (hedge (base + 1 + yes.closed.length) join).mpr (.inr (.inr (.inl ⟨rfl, rfl⟩)))
  have hnoOut := (hedge (other + no.closed.length) join).mpr
    (.inr (.inr (.inr (.inr ⟨rfl, rfl⟩))))
  constructor
  case within =>
      intro i j he
      rw [hlength]
      rcases (hedge i j).mp he with ⟨-, hj⟩ | he | ⟨-, hj⟩ | he | ⟨-, hj⟩
      · omega
      · have := hy.within i j he
        omega
      · omega
      · have := hn.within i j he
        omega
      · omega
  case unfinished =>
      simp only [Fragment.either, List.cons_append, List.append_assoc, List.mem_cons,
        List.mem_append, List.not_mem_nil, or_false]
      rintro s (rfl | hs | rfl | hs | rfl)
      · intro h
        cases h
      · exact hy.unfinished s hs
      · intro h
        cases h
      · exact hn.unfinished s hs
      · intro h
        cases h
  -- A state of the conditional is its head, lies in one of the branches, or is the join.
  case entry =>
      intro i hi hi'
      rw [hlength] at hi'
      rcases Nat.eq_or_lt_of_le hi with rfl | hi
      · exact .refl
      rcases Nat.lt_or_ge i other with hlt | hge
      · exact .head hin ((hy.entry i hi (by omega)).mono hyes)
      rcases Nat.eq_or_lt_of_le hi' with rfl | hi'
      · exact .tail (.head helse ((hn.entry _ (by omega) (Nat.le_refl _)).mono hno)) hnoOut
      · exact .head helse ((hn.entry i hge (by omega)).mono hno)
  case exit =>
      intro i hi hi'
      rw [hlength] at hi' ⊢
      rcases Nat.eq_or_lt_of_le hi with rfl | hi
      · exact .tail (.head helse ((hn.entry _ (by omega) (Nat.le_refl _)).mono hno)) hnoOut
      rcases Nat.lt_or_ge i other with hlt | hge
      · exact .tail ((hy.exit i hi (by omega)).mono hyes) hyesOut
      rcases Nat.eq_or_lt_of_le hi' with rfl | hi'
      · exact .refl
      · exact .tail ((hn.exit i hge (by omega)).mono hno) hnoOut

/-- The edges of a loop. -/
theorem edge_loop (base : Nat) (pending : List Work) (condition : Expr .bool) (body : Fragment)
    (next : List Work) (i j : Nat) :
    Edge base (loop base pending condition body next).closed i j ↔
      (i = base ∧ j = base + 1) ∨
        (i = base + 1 ∧ (j = base + 2 ∨ j = base + 2 + body.closed.length + 1)) ∨
        Edge (base + 2) body.closed i j ∨
        (i = base + 2 + body.closed.length ∧ j = base + 1) := by
  simp [loop, Tail.targets]

/-- A loop is sound if its body is. -/
theorem Sound.loop {base : Nat} {pending : List Work} {condition : Expr .bool} {body : Fragment}
    {next : List Work} (h : body.Sound (base + 2)) :
    (loop base pending condition body next).Sound base := by
  have hedge := edge_loop base pending condition body next
  have hlength : base + (Fragment.loop base pending condition body next).closed.length
      = base + 2 + body.closed.length + 1 := by
    rw [length_loop]
    omega
  have hbody (i j : Nat) (he : Edge (base + 2) body.closed i j) :=
    (hedge i j).mpr (.inr (.inr (.inl he)))
  have htest := (hedge base (base + 1)).mpr (.inl ⟨rfl, rfl⟩)
  have hin := (hedge (base + 1) (base + 2)).mpr (.inr (.inl ⟨rfl, .inl rfl⟩))
  have hpast := (hedge (base + 1) (base + 2 + body.closed.length + 1)).mpr
    (.inr (.inl ⟨rfl, .inr rfl⟩))
  have hback := (hedge (base + 2 + body.closed.length) (base + 1)).mpr
    (.inr (.inr (.inr ⟨rfl, rfl⟩)))
  constructor
  case within =>
      intro i j he
      rw [hlength]
      rcases (hedge i j).mp he with ⟨-, hj⟩ | ⟨-, hj⟩ | he | ⟨-, hj⟩
      · omega
      · omega
      · have := h.within i j he
        omega
      · omega
  case unfinished =>
      simp only [Fragment.loop, List.cons_append, List.mem_cons, List.mem_append,
        List.not_mem_nil, or_false]
      rintro s (rfl | rfl | hs | rfl)
      · intro h
        cases h
      · intro h
        cases h
      · exact h.unfinished s hs
      · intro h
        cases h
  -- A state of the loop is its head, its test, lies in the body, or comes after it.
  case entry =>
      intro i hi hi'
      rw [hlength] at hi'
      rcases Nat.eq_or_lt_of_le hi with rfl | hi
      · exact .refl
      rcases Nat.eq_or_lt_of_le hi with rfl | hi
      · exact .single htest
      rcases Nat.eq_or_lt_of_le hi' with rfl | hi'
      · exact .head htest (.single hpast)
      · exact .head htest (.head hin ((h.entry i hi (by omega)).mono hbody))
  case exit =>
      intro i hi hi'
      rw [hlength] at hi' ⊢
      rcases Nat.eq_or_lt_of_le hi with rfl | hi
      · exact .head htest (.single hpast)
      rcases Nat.eq_or_lt_of_le hi with rfl | hi
      · exact .single hpast
      rcases Nat.eq_or_lt_of_le hi' with rfl | hi'
      · exact .refl
      · exact .tail (.tail ((h.exit i hi (by omega)).mono hbody) hback) hpast

end Fragment

/-! ### The graph of a script -/

/-- A wait leads to the next state only. -/
theorem targets_of_waitTail? {number : Event → Nat} {next : Nat} {s : Statement} {tail : Tail}
    (h : s.waitTail? number next = some tail) : tail.targets = [next] := by
  unfold Statement.waitTail? at h
  split at h
  all_goals cases h
  all_goals rfl

/-- **The fragment of a script** is sound. -/
theorem Layout.sound {number : Event → Nat} {base : Nat} {pending : List Work}
    {items : List Statement} {counters : List String} {f : Fragment}
    (h : Layout number base pending items counters f) : f.Sound base := by
  induction h with
  | nil => exact Fragment.sound_nil ..
  | list _ ih => exact ih
  | work _ _ ih => exact ih
  | wait htail _ ih => exact (Fragment.sound_closing (targets_of_waitTail? htail)).andThen ih
  | when _ _ ihyes ih =>
      refine ihyes.when.andThen ?_
      rw [Fragment.length_when]
      convert ih using 1
      omega
  | either _ _ _ _ ihyes ihno ih =>
      refine (ihyes.either ihno).andThen ?_
      rw [Fragment.length_either]
      convert ih using 1
      omega
  | loop _ _ _ ihbody ih =>
      refine ihbody.loop.andThen ?_
      rw [Fragment.length_loop]
      convert ih using 1
      omega

/-! ### Complete flows -/

/-- One state of a flow may lead to another one. -/
def Flow.Leads (flow : Flow) (i j : Nat) : Prop :=
  ∃ s, flow[i]? = some s ∧ j ∈ s.tail.targets

/-- A flow is **complete** if its last state does nothing but finish, no other state finishes, all
tails lead to states of the flow, and every state lies on a path from the first state to the
last. -/
structure Flow.Complete (flow : Flow) : Prop where
  finish : flow[flow.length - 1]? = some ⟨[], .finish⟩
  only_last : ∀ i s, flow[i]? = some s → s.tail = .finish → i = flow.length - 1
  target : ∀ i j, flow.Leads i j → j < flow.length
  reachable : ∀ i, i < flow.length → Relation.ReflTransGen flow.Leads 0 i
  finishing : ∀ i, i < flow.length → Relation.ReflTransGen flow.Leads i (flow.length - 1)

/-- The flow of a sound fragment is a sound fragment without pending work and the state that
finishes. -/
theorem Fragment.Sound.finish_eq {f : Fragment} (h : f.Sound 0) :
    ∃ g : Fragment, g.Sound 0 ∧ f.finish = g.closed ++ [⟨[], .finish⟩] := by
  unfold finish
  split
  · exact ⟨f, h, rfl⟩
  · refine ⟨f.andThen (closing f.pending (.jump (f.closed.length + 1))), h.andThen ?_, ?_⟩
    · exact sound_closing (by simp [Tail.targets])
    · simp [Fragment.andThen, closing]

/-- The flow of a sound fragment is complete. -/
theorem Fragment.Sound.complete {f : Fragment} (h : f.Sound 0) : f.finish.Complete := by
  obtain ⟨g, hg, hfinish⟩ := h.finish_eq
  have hleads (i j : Nat) : f.finish.Leads i j ↔ Edge 0 g.closed i j := by
    have : f.finish.Leads i j ↔ Edge 0 f.finish i j := by simp [Flow.Leads, Edge]
    rw [this, hfinish, edge_append]
    simp [Tail.targets]
  have hpath (i j : Nat) (hp : Path 0 g.closed i j) : Relation.ReflTransGen f.finish.Leads i j :=
    Relation.ReflTransGen.mono (fun a b => (hleads a b).mpr) _ _ hp
  have hlast : f.finish.length - 1 = g.closed.length := by simp [hfinish]
  have hlength : f.finish.length = g.closed.length + 1 := by simp [hfinish]
  refine ⟨?_, fun i s hs hfin => ?_, fun i j he => ?_, fun i hi => ?_, fun i hi => ?_⟩
  · rw [hlast, hfinish]
    simp
  · rw [hlast]
    by_contra hne
    rw [hfinish, List.getElem?_append] at hs
    split at hs
    · exact hg.unfinished s (List.mem_of_getElem? hs) hfin
    case isFalse hge =>
        have := (List.getElem?_eq_some_iff.mp hs).1
        rw [List.length_singleton] at this
        omega
  · have := hg.within i j ((hleads i j).mp he)
    omega
  · exact hpath 0 i (hg.entry i (Nat.zero_le i) (by omega))
  · rw [hlast]
    have := hg.exit i (Nat.zero_le i) (by omega)
    rw [Nat.zero_add] at this
    exact hpath i _ this

/-- **The flow of a script** is complete. -/
theorem Layout.complete {number : Event → Nat} {items : List Statement}
    {counters : List String} {f : Fragment} (h : Layout number 0 [] items counters f) :
    f.finish.Complete :=
  h.sound.complete

/-! ### The case over a flow -/

/-- The arms of a flow are as many as its states. -/
@[simp] theorem Flow.length_arms (control : SequenceControl) (flow : Flow) :
    (flow.arms control).length = flow.length := by
  simp [arms]

/-- The arm of a state is labelled with the number of the state. -/
theorem Flow.arms_getElem? (control : SequenceControl) {flow : Flow} {n : Nat} {s : State}
    (h : flow[n]? = some s) :
    (flow.arms control)[n]? = some (.mk (some ⟨_, .integer n⟩) (s.statements control)) := by
  simp [arms, h]

/-- The state of an arm. -/
theorem Flow.of_arms_getElem? (control : SequenceControl) {flow : Flow} {n : Nat} {a : Arm}
    (h : (flow.arms control)[n]? = some a) :
    ∃ s, flow[n]? = some s ∧ a.body = s.statements control := by
  simp only [arms, List.getElem?_map, List.getElem?_zipIdx, Option.map_eq_some_iff] at h
  obtain ⟨-, ⟨s, hs, rfl⟩, rfl⟩ := h
  exact ⟨s, hs, rfl⟩

/-- The tails of a flow wait for events with positive numbers. -/
def Flow.Numbered (flow : Flow) : Prop :=
  ∀ s ∈ flow, ∀ n, s.tail.signal? = some n → 1 ≤ n

/-- The ending of an arm consists of the statements of the tail of its state. -/
theorem Flow.Numbered.tail_eq {flow : Flow} (h : flow.Numbered) {control : SequenceControl}
    {s : State} (hs : s ∈ flow) {work tail : List Statement}
    (heq : s.statements control = work ++ tail) (hends : IsEnding control tail) :
    s.tail ≠ .finish ∧ tail = s.tail.statements control := by
  have hfinish : s.tail ≠ .finish := by
    intro hfin
    -- The last statement of the arm is the one that finishes, and no ending has it.
    have hlast := congrArg List.getLast? heq
    rw [State.statements, hfin] at hlast
    cases hends <;> simp [Tail.statements] at hlast
  exact ⟨hfinish, hends.eq_of_append (Tail.isEnding control hfinish (h s hs)) heq.symm⟩

/-- **The edges between the arms of a flow** are those of the flow. -/
theorem Flow.Numbered.leads_iff {flow : Flow} (h : flow.Numbered) (control : SequenceControl)
    (i j : Nat) : Sequence.Leads control (flow.arms control) i j ↔ flow.Leads i j := by
  constructor
  · rintro ⟨a, work, tail, ha, hbody, hends, hj⟩
    obtain ⟨s, hs, hstatements⟩ := Flow.of_arms_getElem? control ha
    obtain ⟨-, rfl⟩ := h.tail_eq (List.mem_of_getElem? hs) (hstatements ▸ hbody) hends
    rw [Tail.assigned_state] at hj
    obtain ⟨k, hk, hkj⟩ := List.mem_map.mp hj
    obtain rfl : k = j := Int.ofNat_inj.mp hkj
    exact ⟨s, hs, hk⟩
  · rintro ⟨s, hs, hj⟩
    have hfinish : s.tail ≠ .finish := by
      intro hfin
      rw [hfin] at hj
      cases hj
    refine ⟨_, _, s.tail.statements control, Flow.arms_getElem? control hs, rfl,
      Tail.isEnding control hfinish (h s (List.mem_of_getElem? hs)), ?_⟩
    rw [Tail.assigned_state]
    exact List.mem_map_of_mem hj

/-- **The graph of a script**, as it can be read off the arms of the case that runs it. The arms are
labelled from 0 on. The last one only finishes, and each of the others is work followed by exactly
one ending. The work is that of the script, in order, and counting. Endings that wait for nothing,
and no others, let the sequence run on. The endings lead to arms only, and every arm lies on a path
from the first one to the last. -/
structure Charted (items : List Statement) (control : SequenceControl) (arms : List Arm)
    (works : List (List Work)) (counters : List String) : Prop where
  labels : arms.map (·.label)
    = (List.range arms.length).map fun n : Nat => some ⟨_, .integer n⟩
  finish : arms.getLast?.map (·.body) = some [.command .finish]
  arm : List.Forall₂ (fun a work => ∃ tail,
    a.body = work.map (·.statement) ++ tail ∧ IsEnding control tail ∧
      ∀ work' tail', a.body = work' ++ tail' → IsEnding control tail' → tail' = tail)
    arms.dropLast works
  user : works.flatten.filterMap (·.user?) = plainOf items
  counting : ∀ c, Work.counting c ∈ works.flatten → Keeps counters c
  runs_on : ∀ a ∈ arms, ∀ work tail, a.body = work ++ tail → IsEnding control tail →
    (.command (.assign control.running.name ⟨_, .bool true⟩) ∈ tail ↔
      assignedAll control.event.name tail = [])
  target : ∀ a ∈ arms, ∀ work tail, a.body = work ++ tail → IsEnding control tail →
    ∀ t ∈ assignedAll control.state.name tail, 0 ≤ t ∧ t < arms.length
  reachable : ∀ i, i < arms.length → Relation.ReflTransGen (Leads control arms) 0 i
  finishing : ∀ i, i < arms.length →
    Relation.ReflTransGen (Leads control arms) i (arms.length - 1)

/-- The state that finishes comes last in the flow of a fragment. -/
theorem Fragment.last_eq (f : Fragment) : f.last = f.finish.length - 1 := by
  unfold last finish
  split <;> simp

/-- The flow of a laid out script has positive numbers of events. -/
theorem Layout.numbered {number : Event → Nat} (hpos : ∀ e, 1 ≤ number e)
    {items : List Statement} {counters : List String} {f : Fragment}
    (h : Layout number 0 [] items counters f) : f.finish.Numbered := by
  intro s hs n hn
  have hmem : n ∈ f.finish.filterMap (·.tail.signal?) := List.mem_filterMap.mpr ⟨s, hs, hn⟩
  rw [h.signals_eq] at hmem
  obtain ⟨e, -, rfl⟩ := List.mem_map.mp hmem
  exact hpos e

/-- The arms of a laid out script, except for the last one, end as their states do. -/
theorem Layout.arms_end {number : Event → Nat} (hpos : ∀ e, 1 ≤ number e)
    {items : List Statement} {counters : List String} {f : Fragment}
    (h : Layout number 0 [] items counters f) (control : SequenceControl) :
    List.Forall₂ (fun a s => s ∈ f.finish ∧
        a.body = s.work.map (·.statement) ++ s.tail.statements control ∧
        IsEnding control (s.tail.statements control))
      (f.finish.arms control).dropLast f.finish.dropLast := by
  obtain ⟨g, hg, hfinish⟩ := h.sound.finish_eq
  have harms : (f.finish.arms control).dropLast = Flow.arms control g.closed := by
    rw [hfinish, Flow.arms, List.zipIdx_append, List.map_append]
    exact List.dropLast_concat
  have hstates : f.finish.dropLast = g.closed.zipIdx.map Prod.fst := by
    rw [hfinish, List.dropLast_concat, List.zipIdx_map_fst]
  rw [harms, hstates, Flow.arms, List.forall₂_map_left_iff, List.forall₂_map_right_iff,
    List.forall₂_same]
  rintro ⟨s, n⟩ hs
  have hs := List.fst_mem_of_mem_zipIdx hs
  have hmem : s ∈ f.finish := by
    rw [hfinish]
    exact List.mem_append_left _ hs
  exact ⟨hmem, rfl, Tail.isEnding control (hg.unfinished s hs) (h.numbered hpos s hmem)⟩

/-- **The numbers of the waits.** The endings of the arms of a laid out script assign to the event
variable the numbers of the waits of the script, in order, where 0 stands for the timer. -/
theorem Layout.assigned_event {number : Event → Nat} {items : List Statement}
    {counters : List String} {f : Fragment} (h : Layout number 0 [] items counters f)
    (control : SequenceControl) :
    assignedAll control.event.name
        (f.finish.dropLast.map (·.tail.statements control)).flatten
      = (waitsOf items).map fun wait => (((wait.map number).getD 0 : Nat) : Int) := by
  obtain ⟨g, -, hfinish⟩ := h.sound.finish_eq
  have hwaits : g.closed.filterMap (·.tail.wait?) = (waitsOf items).map (·.map number) := by
    rw [← h.waits_eq, ← f.finish_waits, hfinish]
    simp
  have hnumbers : (waitsOf items).map (fun wait => (((wait.map number).getD 0 : Nat) : Int))
      = ((waitsOf items).map (·.map number)).map fun n => ((n.getD 0 : Nat) : Int) := by
    rw [List.map_map]
    rfl
  rw [assignedAll_flatten, hfinish, List.dropLast_concat, List.flatMap_map, hnumbers, ← hwaits,
    List.map_filterMap, List.filterMap_eq_flatMap_toList]
  exact congrArg List.flatten (List.map_congr_left fun s _ => s.tail.assigned_event control)

/-- The flow of a laid out script whose events have positive numbers makes such a case. -/
theorem Layout.charted {number : Event → Nat} (hpos : ∀ e, 1 ≤ number e)
    {items : List Statement} {counters : List String} {f : Fragment}
    (h : Layout number 0 [] items counters f) (control : SequenceControl) :
    Charted items control (f.finish.arms control) (f.finish.dropLast.map (·.work)) counters := by
  have hcomplete := h.complete
  have hnumbered := h.numbered hpos
  obtain ⟨g, hg, hfinish⟩ := h.sound.finish_eq
  have hwork : (f.finish.dropLast.map (·.work)).flatten = f.work := by
    rw [← f.finish_work, hfinish, List.dropLast_concat, List.flatMap_append, List.flatMap_def]
    exact (List.append_nil _).symm
  have hleads : Sequence.Leads control (f.finish.arms control) = f.finish.Leads :=
    funext₂ fun i j => propext (hnumbered.leads_iff control i j)
  have htail {a : Arm} (ha : a ∈ f.finish.arms control) {work tail : List Statement}
      (hbody : a.body = work ++ tail) (hends : IsEnding control tail) :
      ∃ (i : Nat) (s : State), f.finish[i]? = some s ∧ tail = s.tail.statements control := by
    obtain ⟨i, hi⟩ := List.getElem?_of_mem ha
    obtain ⟨s, hs, hstatements⟩ := Flow.of_arms_getElem? control hi
    exact ⟨i, s, hs, (hnumbered.tail_eq (List.mem_of_getElem? hs) (hstatements ▸ hbody) hends).2⟩
  constructor
  case labels =>
      rw [Flow.length_arms, Flow.arms, List.map_map, List.range_eq_range', ← List.zipIdx_map_snd,
        List.map_map]
      rfl
  case finish =>
      rw [List.getLast?_eq_getElem?, Flow.length_arms, Flow.arms_getElem? control hcomplete.finish]
      rfl
  case arm =>
      rw [List.forall₂_map_right_iff]
      refine (h.arms_end hpos control).imp fun a s hs => ?_
      obtain ⟨hmem, hbody, hends⟩ := hs
      refine ⟨s.tail.statements control, hbody, hends, fun work' tail' hbody' hends' => ?_⟩
      exact (hnumbered.tail_eq hmem (hbody.symm.trans hbody') hends').2
  case user =>
      rw [hwork, h.user_eq]
      rfl
  case counting =>
      intro c hc
      rw [hwork] at hc
      exact (h.counting_mem hc).resolve_left List.not_mem_nil
  case runs_on => exact fun a _ work tail _ hends => hends.runs_on
  case target =>
      intro a ha work tail hbody hends t ht
      obtain ⟨i, s, hs, rfl⟩ := htail ha hbody hends
      rw [Tail.assigned_state] at ht
      obtain ⟨j, hj, rfl⟩ := List.mem_map.mp ht
      have := hcomplete.target i j ⟨s, hs, hj⟩
      rw [Flow.length_arms]
      omega
  case reachable =>
      intro i hi
      rw [hleads]
      exact hcomplete.reachable i (by simpa using hi)
  case finishing =>
      intro i hi
      rw [hleads, Flow.length_arms]
      exact hcomplete.finishing i (by simpa using hi)

end Sequence

/-! ### The graph of an accepted sequence -/

open Sequence

/-- A sequence that is accepted after a history is laid out as a fragment, whose flow is run by the
statement that comes last in the body. Its counters are new. -/
theorem Module.sequence_layout {options : Options} {present name : String} {m₀ m' : Module}
    (h₀ : Module.new? options present name = .ok m₀) (history : List Operation)
    {guard : Expr .bool} {items : List Statement} {r : CompiledSequence}
    (h : Module.sequence guard items (m₀.after history) = .ok r m') :
    ∃ f counters,
      m'.body = (m₀.after history).body ++ [runner guard r.control f.finish] ∧
      r.control.index = (m₀.after history).sequences + 1 ∧
      r.states = f.finish.length ∧ r.finish = f.finish.length - 1 ∧
      Layout (numberIn m'.prologue) 0 [] items counters f ∧
      ∀ x ∈ counters, x ∉ r.control.names ∧ x ∉ (m₀.after history).names.taken := by
  have ho := orderly_after h₀ history
  obtain ⟨f, counters, hstates, hlast, hacc⟩ := sequence_ok ho h
  obtain ⟨names, hm'⟩ := hacc.module_eq
  have ho' : Orderly m'.prologue := by
    rw [hm']
    exact (ho.statement _).registeredAll _ _
  refine ⟨f, counters, ?_, ?_, hstates, hlast.trans f.last_eq,
    hacc.layout _ (agrees_numberIn ho'), fun x hx => ⟨?_, ?_⟩⟩
  · rw [hm']
  · rw [hacc.control_eq]
  · exact fun hc => List.disjoint_of_nodup_append hacc.fresh.1 hc hx
  · exact hacc.fresh.2 x (List.mem_append_right _ hx)

/-- **Every accepted sequence has a complete graph.** Whatever was done to a module before, a
sequence that it accepts is run by a loop around a case whose arms are a closed and complete graph.
Compilation returns the number of arms and the state that finishes, which is the last one. The
counters of the sequence are new. -/
theorem Module.sequence_graph {options : Options} {present name : String} {m₀ m' : Module}
    (h₀ : Module.new? options present name = .ok m₀) (history : List Operation)
    {guard : Expr .bool} {items : List Statement} {r : CompiledSequence}
    (h : Module.sequence guard items (m₀.after history) = .ok r m') :
    ∃ arms works counters,
      m'.body = (m₀.after history).body ++
        [.branch guard
          [.block (.whileLoop r.control.running.expr)
            [.command (.assign r.control.running.name ⟨_, .bool false⟩),
              .select ⟨_, r.control.state.expr⟩ arms]] []] ∧
      r.control.index = (m₀.after history).sequences + 1 ∧
      r.states = arms.length ∧ r.finish = arms.length - 1 ∧
      Charted items r.control arms works counters ∧
      ∀ x ∈ counters, x ∉ r.control.names ∧ x ∉ (m₀.after history).names.taken := by
  obtain ⟨f, counters, hbody, hindex, hstates, hlast, hlayout, hfresh⟩ :=
    sequence_layout h₀ history h
  refine ⟨f.finish.arms r.control, f.finish.dropLast.map (·.work), counters, hbody, hindex, ?_, ?_,
    hlayout.charted (fun e => Nat.le_add_left 1 _) r.control, hfresh⟩
  · rw [hstates, Flow.length_arms]
  · rw [hlast, Flow.length_arms]

/-- A loop with a wait in it is accepted by a new module and has a complete graph of five states. -/
theorem Module.sequence_graph_loop :
    ∃ m₀ m' r arms works counters,
      Module.new? .standard "" "bench" = .ok m₀ ∧
      Module.sequence (.bool true)
        [.block (.repeatLoop (.integer 3)) [.command (.toggle "led"), .wait (.real 2.0)]]
        (m₀.after []) = .ok r m' ∧
      arms.length = 5 ∧ r.finish = 4 ∧
      Charted [.block (.repeatLoop (.integer 3)) [.command (.toggle "led"), .wait (.real 2.0)]]
        r.control arms works counters := by
  obtain ⟨m₀, h₀⟩ : ∃ m₀, Module.new? .standard "" "bench" = .ok m₀ := ⟨_, rfl⟩
  have hvalue : Build.value? (Module.sequence (.bool true)
      [.block (.repeatLoop (.integer 3)) [.command (.toggle "led"), .wait (.real 2.0)]]) m₀
      = some ⟨⟨1⟩, 5, 4⟩ := by
    rw [eq_of_new? h₀]
    rfl
  obtain ⟨m', h⟩ := Build.value?_eq_some.mp hvalue
  obtain ⟨arms, works, counters, -, -, hstates, -, hcharted, -⟩ := Module.sequence_graph h₀ [] h
  exact ⟨m₀, m', _, arms, works, counters, h₀, h, hstates.symm, rfl, hcharted⟩

end Stimulus
