import Stimulus.Proofs.Run.Script

/-!
# Places in a flow

A thread stands at a place in its script, which is a stack of frames; the code stands at a place in
the flow, which is what is left of the work of a state, and its tail. The relation `Meets` says that
a place in the flow does what the frames ask for.

The frames of counting loops come with counters, so a place is met only with the values that the
counters are expected to have.

## Main results

* `Sequence.Layout.starts`: the state in which a script is entered begins with the work that was
  pending.
* `Sequence.Meets.enter`, `Sequence.MeetsAt.enter`: where a script is entered it is run.
-/

namespace Stimulus.Sequence

/-! ### Fragments in flows -/

/-- A flow has some states from position `base` on. -/
def Placed (flow : Flow) (base : Nat) (states : List State) : Prop :=
  ∀ (k : Nat) (s : State), states[k]? = some s → flow[base + k]? = some s

section Placed

variable {flow : Flow} {base : Nat}

/-- A state and those after it have their places. -/
theorem Placed.cons {s : State} {states : List State} (h : Placed flow base (s :: states)) :
    flow[base]? = some s ∧ Placed flow (base + 1) states := by
  refine ⟨h 0 s rfl, fun k t ht => ?_⟩
  rw [Nat.add_assoc, Nat.add_comm 1]
  exact h (k + 1) t ht

/-- States in a row have their places. -/
theorem Placed.append {xs ys : List State} (h : Placed flow base (xs ++ ys)) :
    Placed flow base xs ∧ Placed flow (base + xs.length) ys := by
  constructor
  · intro k s hs
    obtain ⟨hk, -⟩ := List.getElem?_eq_some_iff.mp hs
    exact h k s (by rw [List.getElem?_append_left hk, hs])
  · intro k s hs
    rw [Nat.add_assoc]
    refine h _ s ?_
    rw [List.getElem?_append_right (Nat.le_add_right _ _), Nat.add_sub_cancel_left, hs]

/-- A conditional without an alternative has its places. -/
theorem Placed.when {pending : List Work} {condition : Expr .bool} {y g : Fragment}
    (h : Placed flow base ((Fragment.when base pending condition y).andThen g).closed) :
    flow[base]? = some ⟨pending,
        .branch condition (base + 1) (base + 1 + y.closed.length + 1)⟩ ∧
      Placed flow (base + 1) y.closed ∧
      flow[base + 1 + y.closed.length]?
        = some ⟨y.pending, .jump (base + 1 + y.closed.length + 1)⟩ ∧
      Placed flow (base + 1 + y.closed.length + 1) g.closed := by
  simp only [Fragment.andThen, Fragment.when, List.cons_append, List.append_assoc,
    List.nil_append] at h
  obtain ⟨hhead, h⟩ := h.cons
  obtain ⟨hyes, h⟩ := h.append
  obtain ⟨hlast, h⟩ := h.cons
  exact ⟨hhead, hyes, hlast, h⟩

/-- A conditional with an alternative has its places. -/
theorem Placed.either {pending : List Work} {condition : Expr .bool} {y n g : Fragment}
    (h : Placed flow base ((Fragment.either base pending condition y n).andThen g).closed) :
    let other := base + 1 + y.closed.length + 1
    let join := other + n.closed.length + 1
    flow[base]? = some ⟨pending, .branch condition (base + 1) other⟩ ∧
      Placed flow (base + 1) y.closed ∧
      flow[base + 1 + y.closed.length]? = some ⟨y.pending, .jump join⟩ ∧
      Placed flow other n.closed ∧
      flow[other + n.closed.length]? = some ⟨n.pending, .jump join⟩ ∧
      Placed flow join g.closed := by
  simp only [Fragment.andThen, Fragment.either, List.cons_append, List.append_assoc,
    List.nil_append] at h
  obtain ⟨hhead, h⟩ := h.cons
  obtain ⟨hyes, h⟩ := h.append
  obtain ⟨hyesLast, h⟩ := h.cons
  obtain ⟨hno, h⟩ := h.append
  obtain ⟨hnoLast, h⟩ := h.cons
  exact ⟨hhead, hyes, hyesLast, hno, hnoLast, h⟩

/-- A loop has its places. -/
theorem Placed.loop {pending : List Work} {condition : Expr .bool} {b g : Fragment}
    {next : List Work}
    (h : Placed flow base ((Fragment.loop base pending condition b next).andThen g).closed) :
    flow[base]? = some ⟨pending, .jump (base + 1)⟩ ∧
      flow[base + 1]?
        = some ⟨[], .branch condition (base + 2) (base + 2 + b.closed.length + 1)⟩ ∧
      Placed flow (base + 2) b.closed ∧
      flow[base + 2 + b.closed.length]? = some ⟨b.pending ++ next, .jump (base + 1)⟩ ∧
      Placed flow (base + 2 + b.closed.length + 1) g.closed := by
  simp only [Fragment.andThen, Fragment.loop, List.cons_append, List.append_assoc,
    List.nil_append] at h
  obtain ⟨hhead, h⟩ := h.cons
  obtain ⟨htest, h⟩ := h.cons
  obtain ⟨hbody, h⟩ := h.append
  obtain ⟨hlast, h⟩ := h.cons
  exact ⟨hhead, htest, hbody, hlast, h⟩

end Placed

/-- **Where a script starts.** The state in which a laid out script is entered begins with the work
that was pending. -/
theorem Layout.starts {number : Event → Nat} {base : Nat} {pending : List Work}
    {items : List Statement} {counters : List String} {f : Fragment}
    (h : Layout number base pending items counters f) {flow : Flow}
    (hplaced : Placed flow base f.closed) {more : List Work} {last : Tail}
    (hend : flow[base + f.closed.length]? = some ⟨f.pending ++ more, last⟩) :
    ∃ ws tail, flow[base]? = some ⟨pending ++ ws, tail⟩ := by
  induction h generalizing more last with
  | nil => exact ⟨more, last, hend⟩
  | list _ ih => exact ih hplaced hend
  | work _ _ ih =>
      obtain ⟨ws, tail, hstart⟩ := ih hplaced hend
      rw [List.append_assoc] at hstart
      exact ⟨_, tail, hstart⟩
  | wait _ _ _ =>
      obtain ⟨hhead, -⟩ := Placed.cons hplaced
      exact ⟨[], _, by rw [List.append_nil, hhead]⟩
  | when _ _ _ _ =>
      obtain ⟨hhead, -⟩ := hplaced.when
      exact ⟨[], _, by rw [List.append_nil, hhead]⟩
  | either _ _ _ _ _ _ _ =>
      obtain ⟨hhead, -⟩ := hplaced.either
      exact ⟨[], _, by rw [List.append_nil, hhead]⟩
  | loop _ _ _ _ _ =>
      obtain ⟨hhead, -⟩ := hplaced.loop
      exact ⟨_, _, hhead⟩

/-! ### Places -/

/-- The values that the counters of the loops around a place are expected to have. -/
abbrev Expected := List (String × Nat)

/-- The counters of a part of a script are fit for a place: they are different from each other and
from those that are expected to keep their values, and they are among the counters of the
script. -/
structure Fit (all : List String) (counters : List String) (expected : Expected) : Prop where
  nodup : counters.Nodup
  subset : ∀ x ∈ counters, x ∈ all
  fresh : ∀ x ∈ counters, x ∉ expected.map (·.1)

/-- The counters of a part of a part are fit as well. -/
theorem Fit.mono {all cs ds : List String} {expected : Expected} (h : Fit all ds expected)
    (hsub : cs.Sublist ds) : Fit all cs expected :=
  ⟨h.nodup.sublist hsub, fun x hx => h.subset x (hsub.subset hx),
    fun x hx => h.fresh x (hsub.subset hx)⟩

/-- The body of a loop at the places of a flow: it is entered in state `entry`, and after its last
state and some more work the test is next. -/
structure Body (number : Event → Nat) (flow : Flow) (all : List String) (expected : Expected)
    (test entry : Nat) (next : List Work) (body : List Statement) : Prop where
  exists_layout : ∃ counters b, Layout number entry [] body counters b ∧
    Placed flow entry b.closed ∧
    flow[entry + b.closed.length]? = some ⟨b.pending ++ next, .jump test⟩ ∧
    Fit all counters expected

/-- **A place in a flow meets some frames**: what is left of the work of a state, and then its
tail, do what the frames ask for, as long as the counters have the expected values. -/
inductive Meets (number : Event → Nat) (flow : Flow) (all : List String) :
    List Work → Tail → List Frame → Expected → Prop
  /-- All is done. -/
  | finish : Meets number flow all [] .finish [] []
  /-- The next state does it. -/
  | jump {next : Nat} {ws : List Work} {tail : Tail} {frames : List Frame}
      {expected : Expected} :
      flow[next]? = some ⟨ws, tail⟩ → Meets number flow all ws tail frames expected →
      Meets number flow all [] (.jump next) frames expected
  /-- A script is laid out here, and the frames around it are met where it ends. -/
  | run {base : Nat} {pending : List Work} {items : List Statement} {counters : List String}
      {f : Fragment} {more ws : List Work} {last tail : Tail} {frames : List Frame}
      {expected : Expected} :
      Layout number base pending items counters f → Placed flow base f.closed →
      flow[base + f.closed.length]? = some ⟨f.pending ++ more, last⟩ →
      Meets number flow all more last frames expected → Fit all counters expected →
      flow[base]? = some ⟨pending ++ ws, tail⟩ →
      Meets number flow all ws tail (.run items :: frames) expected
  /-- The test of a loop. -/
  | test {test entry exit : Nat} {condition : Expr .bool} {body : List Statement}
      {ws : List Work} {tail : Tail} {frames : List Frame} {expected : Expected} :
      flow[test]? = some ⟨[], .branch condition entry exit⟩ →
      Body number flow all expected test entry [] body →
      flow[exit]? = some ⟨ws, tail⟩ → Meets number flow all ws tail frames expected →
      Meets number flow all [] (.branch condition entry exit) (.test condition body :: frames)
        expected
  /-- The test of a counting loop. -/
  | rounds {test entry exit done times : Nat} {x : String} {count : Expr .integer}
      {body : List Statement} {ws : List Work} {tail : Tail} {frames : List Frame}
      {expected : Expected} :
      flow[test]? = some ⟨[],
        .branch (Expr.comparison .lt rfl (.ident x) count) entry exit⟩ →
      (∀ i, Body number flow all ((x, i) :: expected) test entry [.counting (.increment x)]
        body) →
      x ∈ all → x ∉ expected.map (·.1) →
      flow[exit]? = some ⟨ws, tail⟩ → Meets number flow all ws tail frames expected →
      Meets number flow all [] (.branch (Expr.comparison .lt rfl (.ident x) count) entry exit)
        (.rounds done times count body :: frames) ((x, done) :: expected)
  /-- A round is counted. -/
  | count {x : String} {done : Nat} {ws : List Work} {tail : Tail} {frames : List Frame}
      {expected : Expected} :
      Meets number flow all ws tail frames ((x, done + 1) :: expected) →
      Meets number flow all (.counting (.increment x) :: ws) tail frames
        ((x, done) :: expected)

variable {number : Event → Nat} {flow : Flow} {all : List String}

/-- A state of a flow starts at a place that meets some frames. -/
def MeetsAt (number : Event → Nat) (flow : Flow) (all : List String) (i : Nat)
    (frames : List Frame) (expected : Expected) : Prop :=
  ∃ ws tail, flow[i]? = some ⟨ws, tail⟩ ∧ Meets number flow all ws tail frames expected

/-- Going on to a state does what the state does. -/
theorem MeetsAt.jump {i : Nat} {frames : List Frame} {expected : Expected}
    (h : MeetsAt number flow all i frames expected) :
    Meets number flow all [] (.jump i) frames expected := by
  obtain ⟨_, _, hflow, hmeets⟩ := h
  exact .jump hflow hmeets

/-- A list without statements need not be run. -/
theorem MeetsAt.nil {i : Nat} {frames : List Frame} {expected : Expected}
    (h : MeetsAt number flow all i frames expected) :
    MeetsAt number flow all i (.run [] :: frames) expected := by
  obtain ⟨ws, tail, hflow, hmeets⟩ := h
  have hfit : Fit all [] expected := ⟨List.nodup_nil, by simp, by simp⟩
  have hlayout : Layout number i [] [] [] ⟨[], []⟩ := .nil
  exact ⟨ws, tail, hflow, .run hlayout (by simp [Placed]) hflow hmeets hfit hflow⟩

/-- Where a script is entered without pending work there is a place that runs it. -/
theorem Meets.enter {base : Nat} {items : List Statement} {counters : List String}
    {f : Fragment} {more : List Work} {last : Tail} {frames : List Frame} {expected : Expected}
    (hrest : Meets number flow all more last frames expected)
    (h : Layout number base [] items counters f) (hplaced : Placed flow base f.closed)
    (hend : flow[base + f.closed.length]? = some ⟨f.pending ++ more, last⟩)
    (hfit : Fit all counters expected) :
    MeetsAt number flow all base (.run items :: frames) expected := by
  obtain ⟨ws, tail, hstart⟩ := h.starts hplaced hend
  exact ⟨ws, tail, hstart, .run h hplaced hend hrest hfit hstart⟩

/-- A branch whose last state goes on to a state that does the rest. -/
theorem MeetsAt.enter {base join : Nat} {items : List Statement} {counters : List String}
    {f : Fragment} {frames : List Frame} {expected : Expected}
    (hrest : MeetsAt number flow all join frames expected)
    (h : Layout number base [] items counters f) (hplaced : Placed flow base f.closed)
    (hend : flow[base + f.closed.length]? = some ⟨f.pending, .jump join⟩)
    (hfit : Fit all counters expected) :
    MeetsAt number flow all base (.run items :: frames) expected := by
  refine hrest.jump.enter h hplaced ?_ hfit
  rw [List.append_nil, hend]

/-- The test of a loop is a state of its own. -/
theorem MeetsAt.test {test entry exit : Nat} {condition : Expr .bool} {body : List Statement}
    {frames : List Frame} {expected : Expected}
    (hexit : MeetsAt number flow all exit frames expected)
    (htest : flow[test]? = some ⟨[], .branch condition entry exit⟩)
    (hbody : Body number flow all expected test entry [] body) :
    MeetsAt number flow all test (.test condition body :: frames) expected := by
  obtain ⟨ws, tail, hflow, hmeets⟩ := hexit
  exact ⟨[], _, htest, .test htest hbody hflow hmeets⟩

/-- The test of a counting loop is a state of its own. -/
theorem MeetsAt.rounds {test entry exit : Nat} {x : String} {count : Expr .integer}
    {body : List Statement} {frames : List Frame} {expected : Expected}
    (hexit : MeetsAt number flow all exit frames expected)
    (htest : flow[test]? = some ⟨[],
      .branch (Expr.comparison .lt rfl (.ident x) count) entry exit⟩)
    (hbody : ∀ i, Body number flow all ((x, i) :: expected) test entry
      [.counting (.increment x)] body)
    (hx : x ∈ all) (hfresh : x ∉ expected.map (·.1)) (done times : Nat) :
    MeetsAt number flow all test (.rounds done times count body :: frames)
      ((x, done) :: expected) := by
  obtain ⟨ws, tail, hflow, hmeets⟩ := hexit
  exact ⟨[], _, htest, .rounds htest hbody hx hfresh hflow hmeets⟩

/-- The counters of a place are counters of the script. -/
theorem Meets.expected_mem {ws : List Work} {tail : Tail} {frames : List Frame}
    {expected : Expected} (h : Meets number flow all ws tail frames expected) :
    ∀ p ∈ expected, p.1 ∈ all := by
  induction h with
  | finish => simp
  | jump _ _ ih => exact ih
  | run _ _ _ _ _ _ ih => exact ih
  | test _ _ _ _ ih => exact ih
  | rounds _ _ hx _ _ _ ih =>
      -- Behind the loop its counter is not expected to hold anything any more.
      intro p hp
      rcases List.mem_cons.mp hp with rfl | hp
      · exact hx
      · exact ih p hp
  | @count x done _ _ _ _ _ ih =>
      intro p hp
      rcases List.mem_cons.mp hp with rfl | hp
      · exact ih (x, done + 1) List.mem_cons_self
      · exact ih p (List.mem_cons_of_mem _ hp)

/-- The counters of a place are different. -/
theorem Meets.expected_nodup {ws : List Work} {tail : Tail} {frames : List Frame}
    {expected : Expected} (h : Meets number flow all ws tail frames expected) :
    (expected.map (·.1)).Nodup := by
  induction h with
  | finish => exact List.nodup_nil
  | jump _ _ ih => exact ih
  | run _ _ _ _ _ _ ih => exact ih
  | test _ _ _ _ ih => exact ih
  | rounds _ _ _ hx _ _ ih => exact List.nodup_cons.mpr ⟨hx, ih⟩
  | count _ ih => exact ih

/-- The flow of a script has the states that its fragment closes. -/
theorem Fragment.placed_finish (f : Fragment) : Placed f.finish 0 f.closed := by
  intro k s hs
  obtain ⟨hk, -⟩ := List.getElem?_eq_some_iff.mp hs
  rw [Nat.zero_add]
  unfold Fragment.finish
  split <;> rw [List.getElem?_append_left hk, hs]

/-- A flow for a script starts at a place that runs the script. -/
theorem Layout.meets {items : List Statement} {counters : List String} {f : Fragment}
    (h : Layout number 0 [] items counters f) (hnodup : counters.Nodup) :
    MeetsAt number f.finish counters 0 [.run items] [] := by
  have hplaced := f.placed_finish
  have hfit : Fit counters counters [] := ⟨hnodup, fun _ hx => hx, by simp⟩
  -- Pending work has a state of its own, which jumps to the last one.
  cases hempty : f.pending.isEmpty with
  | true =>
      refine Meets.finish.enter h hplaced ?_ hfit
      simp [Fragment.finish, List.isEmpty_iff.mp hempty]
  | false =>
      have hlast : f.finish[f.closed.length + 1]? = some ⟨[], .finish⟩ := by
        simp [Fragment.finish, hempty]
      refine (Meets.jump hlast .finish).enter h hplaced ?_ hfit
      simp [Fragment.finish, hempty]

end Stimulus.Sequence
