import Stimulus.Proofs.Sequence.Layout
import Stimulus.Sequence.Draft

/-!
# Sealed charts

Compilation by way of a draft and compilation to fragments are the same. A draft seals its states
in another order than they are numbered in, and it checks every seal; a fragment has its states in
order and checks nothing. The two go through a script in step. While a draft has state `base` open,
the states up to `base` are allocated and none from `base` on is sealed; when it has gone on by a
fragment, the states of the fragment are sealed, the one after them is open, and what was there
before is as it was (`Sequence.Draft.Grows`). So no seal is ever refused.

## Main results

* `Sequence.Draft.addAll_matches`: a draft grows by the fragment to which a script is compiled.
* `Sequence.Draft.case?_finish`: a finished draft is a chart without gaps.
* `Module.draftedSequence_eq`: the two ways to compile a sequence are the same.
-/

namespace Stimulus

/-! ### Steps that match -/

namespace Build

variable {α β γ δ : Type}

/-- Two outcomes with the same module afterwards, which are the same fault or have related
results. -/
inductive Alike (Q : α → β → Prop) :
    EStateM.Result Fault Module α → EStateM.Result Fault Module β → Prop
  | ok {a : α} {b : β} {m : Module} (h : Q a b) : Alike Q (.ok a m) (.ok b m)
  | error {f : Fault} {m : Module} : Alike Q (.error f m) (.error f m)

/-- Two steps **match** if their outcomes are alike at every module. -/
def Matches (Q : α → β → Prop) (x : Build α) (y : Build β) : Prop :=
  ∀ m, Alike Q (x m) (y m)

variable {Q : α → β → Prop} {P : γ → δ → Prop}

/-- Steps that give related results match. -/
theorem matches_pure {a : α} {b : β} (h : Q a b) : Matches Q (pure a) (pure b) :=
  fun _ => .ok h

/-- Steps that fail with the same fault match. -/
theorem matches_fail (f : Fault) : Matches Q (fail f) (fail f) :=
  fun _ => .error

/-- A step matches itself. -/
theorem matches_refl (x : Build α) : Matches Eq x x := by
  intro m
  cases x m with
  | ok a m' => exact .ok rfl
  | error f m' => exact .error

/-- Composed steps match if their parts do. -/
theorem Matches.bind {x : Build α} {y : Build β} {f : α → Build γ} {g : β → Build δ}
    (h : Matches Q x y) (hfg : ∀ a b, Q a b → Matches P (f a) (g b)) :
    Matches P (x >>= f) (y >>= g) := by
  intro m
  have hm := h m
  cases hx : x m with
  | ok a m₁ =>
      cases hy : y m with
      | ok b m₂ =>
          rw [hx, hy] at hm
          cases hm with
          | ok hab =>
              rw [bind_of_ok hx, bind_of_ok hy]
              exact hfg _ _ hab m₁
      | error e m₂ =>
          rw [hx, hy] at hm
          cases hm
  | error e m₁ =>
      cases hy : y m with
      | ok b m₂ =>
          rw [hx, hy] at hm
          cases hm
      | error e' m₂ =>
          rw [hx, hy] at hm
          cases hm
          rw [bind_of_error hx, bind_of_error hy]
          exact .error

/-- Going on after the same step matches if it does from every result. -/
theorem matches_bind_left {x : Build α} {f : α → Build γ} {g : α → Build δ}
    (h : ∀ a, Matches P (f a) (g a)) : Matches P (x >>= f) (x >>= g) :=
  (matches_refl x).bind fun a _ hab => hab ▸ h a

/-- Steps that match with equal results are the same. -/
theorem Matches.eq {x y : Build α} (h : Matches Eq x y) : x = y := by
  funext m
  have hm := h m
  generalize x m = r, y m = r' at hm
  cases hm with
  | ok hab => rw [hab]
  | error => rfl

end Build

open Build

namespace Sequence

/-! ### What a chart holds -/

/-- The states of a list are sealed in a chart, from state `base` on. -/
def Holds (control : SequenceControl) (chart : StateChart) (base : Nat) (states : List State) :
    Prop :=
  ∀ (k : Nat) (s : State), states[k]? = some s →
    chart.body? (base + k) = some (s.statements control)

section Holds

variable {control : SequenceControl} {chart : StateChart} {base : Nat}

/-- Every chart holds no states. -/
@[simp] theorem holds_nil : Holds control chart base [] := by
  simp [Holds]

/-- A state and those after it. -/
@[simp] theorem holds_cons {s : State} {states : List State} :
    Holds control chart base (s :: states)
      ↔ chart.body? base = some (s.statements control) ∧
        Holds control chart (base + 1) states := by
  constructor
  · intro h
    refine ⟨h 0 s rfl, fun k t ht => ?_⟩
    rw [Nat.add_assoc, Nat.add_comm 1]
    exact h (k + 1) t ht
  · rintro ⟨hs, h⟩ k t ht
    cases k with
    | zero =>
        obtain rfl := Option.some.inj ht
        exact hs
    | succ k =>
        rw [← Nat.add_assoc, Nat.add_right_comm]
        exact h k t ht

/-- Two lists of states in a row. -/
@[simp] theorem holds_append {xs ys : List State} :
    Holds control chart base (xs ++ ys)
      ↔ Holds control chart base xs ∧ Holds control chart (base + xs.length) ys := by
  induction xs generalizing base with
  | nil => simp
  | cons x xs ih =>
      rw [List.cons_append, holds_cons, holds_cons, ih, and_assoc, List.length_cons,
        Nat.add_assoc base, Nat.add_comm 1]

/-- States are held by every chart that agrees on them. -/
theorem Holds.congr {chart' : StateChart} {states : List State}
    (h : Holds control chart base states)
    (hbody : ∀ n, base ≤ n → n < base + states.length → chart'.body? n = chart.body? n) :
    Holds control chart' base states := by
  intro k s hs
  have hk := (List.getElem?_eq_some_iff.mp hs).1
  rw [hbody _ (by omega) (by omega)]
  exact h k s hs

end Holds

/-! ### Drafts, step by step -/

/-- The tail that chooses between two states is made of a checked conditional. -/
theorem choice_eq (control : SequenceControl) (condition : Expr .bool) (yes no : Nat) :
    choice control condition yes no
      = pure ((Tail.branch condition yes no).statements control) :=
  rfl

namespace Draft

/-- A draft with one more allocated state. -/
def extend (d : Draft) : Draft :=
  { d with chart := { d.chart with count := d.chart.count + 1 } }

/-- The state that is allocated next has the next number. -/
theorem allocate_eq (d : Draft) : d.allocate = (d.chart.count, d.extend) :=
  rfl

/-- One more state is allocated. -/
@[simp] theorem count_extend (d : Draft) : d.extend.chart.count = d.chart.count + 1 :=
  rfl

/-- No further state is sealed. -/
@[simp] theorem body?_extend (d : Draft) (n : Nat) :
    d.extend.chart.body? n = d.chart.body? n :=
  rfl

/-- A state that is allocated and not sealed can be sealed. -/
theorem sealState_eq {d : Draft} (state : Nat) (body : List Statement)
    (hcount : state < d.chart.count) (hfree : d.chart.body? state = none) :
    ∃ e, d.sealState state body = pure e ∧ e.current = d.current ∧ e.pending = d.pending ∧
      e.chart.count = d.chart.count ∧
      ∀ n, e.chart.body? n = if n = state then some body else d.chart.body? n := by
  have hseal : d.chart.seal? state body
      = .ok { d.chart with sealed := (state, body) :: d.chart.sealed } := by
    rw [StateChart.seal?, if_neg (Nat.not_le.mpr hcount), hfree]
    rfl
  refine ⟨{ d with chart := { d.chart with sealed := (state, body) :: d.chart.sealed } }, ?_, rfl,
    rfl, rfl, fun n => ?_⟩
  · rw [sealState, hseal]
    rfl
  · rw [StateChart.body?, List.lookup_cons]
    by_cases hn : n = state
    · rw [if_pos hn, hn, beq_self_eq_true]
    · rw [if_neg hn, beq_false_of_ne hn]
      rfl

/-- The open state can be closed with a tail if it is allocated and not sealed. -/
theorem close_eq {d : Draft} {base : Nat} (work : List Work) (control : SequenceControl)
    (tail : Tail) (hcurrent : d.current = base) (hpending : d.pending = work.map (·.statement))
    (hcount : base < d.chart.count) (hfree : d.chart.body? base = none) :
    ∃ e, d.close (tail.statements control) = pure e ∧ e.pending = [] ∧
      e.chart.count = d.chart.count ∧
      ∀ n, e.chart.body? n
        = if n = base then some (State.statements control ⟨work, tail⟩) else d.chart.body? n := by
  subst hcurrent
  obtain ⟨e, he, -, hempty, hrest⟩ :=
    sealState_eq (d := d.clear) d.current (d.pending ++ tail.statements control) hcount hfree
  refine ⟨e, he, hempty, ?_⟩
  rw [State.statements, ← hpending]
  exact hrest

/-! ### Open drafts -/

/-- State `base` of a draft is open: it is the last one that is allocated, no state from it on is
sealed, and the given work is pending for it. -/
structure Open (d : Draft) (base : Nat) (pending : List Work) : Prop where
  current : d.current = base
  count : d.chart.count = base + 1
  free : ∀ n, base ≤ n → d.chart.body? n = none
  pending : d.pending = pending.map (·.statement)

/-- A draft `d` whose states from `base` on are not sealed has **grown** by a fragment to the draft
`d'`. -/
structure Grows (control : SequenceControl) (base : Nat) (d d' : Draft) (f : Fragment) :
    Prop where
  opened : d'.Open (base + f.closed.length) f.pending
  holds : Holds control d'.chart base f.closed
  below : ∀ n, n < base → d'.chart.body? n = d.chart.body? n

variable {control : SequenceControl} {base : Nat} {pending : List Work} {d : Draft}

/-- Nothing has been read yet. -/
theorem start_open : start.Open 0 [] :=
  ⟨rfl, rfl, fun _ _ => rfl, rfl⟩

/-- Work for the open state closes nothing. -/
theorem Open.push (h : d.Open base pending) (more : Work) :
    Grows control base d (d.push [more.statement]) (.working pending more) where
  opened := by
    refine ⟨h.current, h.count, h.free, ?_⟩
    simp [Draft.push, Fragment.working, h.pending]
  holds := holds_nil
  below _ _ := rfl

/-- Growing twice is growing by both fragments. -/
theorem Grows.trans {d₁ d₂ : Draft} {f g : Fragment} (h : Grows control base d d₁ f)
    (h' : Grows control (base + f.closed.length) d₁ d₂ g) :
    Grows control base d d₂ ⟨f.closed ++ g.closed, g.pending⟩ where
  opened := by
    rw [List.length_append, ← Nat.add_assoc]
    exact h'.opened
  holds := holds_append.mpr ⟨h.holds.congr fun n _ hn => h'.below n hn, h'.holds⟩
  below n hn := (h'.below n (Nat.lt_of_lt_of_le hn (Nat.le_add_right _ _))).trans (h.below n hn)

/-- A wait closes the open state. -/
theorem Open.wait (h : d.Open base pending) (tail : Nat → Tail) :
    ∃ d', d.wait control tail = pure d' ∧
      Grows control base d d' (.closing pending (tail (base + 1))) := by
  obtain ⟨hcurrent, hcount, hfree, hpending⟩ := h
  obtain ⟨e, he, hempty, hcount₁, hbody₁⟩ := close_eq (d := d.extend) pending control
    (tail (base + 1)) hcurrent hpending (by rw [count_extend, hcount]; omega) (hfree _ (Nat.le_refl _))
  rw [count_extend, hcount] at hcount₁
  simp only [body?_extend] at hbody₁
  refine ⟨e.moveTo (base + 1), ?_, ⟨rfl, hcount₁, fun n hn => ?_, hempty⟩, ?_, fun n hn => ?_⟩
  · rw [Draft.wait, allocate_eq, hcount]
    dsimp only
    rw [he, pure_bind]
  · rw [Fragment.length_closing] at hn
    exact (hbody₁ n).trans (by rw [if_neg (by omega), hfree n (by omega)])
  · exact holds_cons.mpr ⟨(hbody₁ base).trans (if_pos rfl), holds_nil⟩
  · exact (hbody₁ n).trans (if_neg (by omega))

/-- **A loop** grows the draft by its fragment, if its body does. -/
theorem Open.loop (h : d.Open base pending) (condition : Expr .bool) (prepare next : List Work)
    {inside : Draft → Build Draft} {y : Build Fragment}
    (hinside : ∀ e : Draft, e.Open (base + 2) [] →
      Matches (Grows control (base + 2) e) (inside e) y) :
    Matches (Grows control base d)
      (d.loop control (prepare.map (·.statement)) condition (next.map (·.statement)) inside)
      (do return .loop base (pending ++ prepare) condition (← y) next) := by
  obtain ⟨hcurrent, hcount, hfree, hpending⟩ := h
  -- The head is closed, and the body starts two states later.
  obtain ⟨e, he, hempty, hcount₁, hbody₁⟩ := close_eq
    (d := d.extend.push (prepare.map (·.statement))) (pending ++ prepare) control
    (.jump (base + 1)) hcurrent (by rw [List.map_append, ← hpending]; rfl)
    (by change base < d.chart.count + 1; omega) (hfree _ (Nat.le_refl _))
  change e.chart.count = d.chart.count + 1 at hcount₁
  change ∀ n, _ = if n = base then _ else d.chart.body? n at hbody₁
  have hstart : (e.extend.moveTo (base + 2)).Open (base + 2) [] := by
    refine ⟨rfl, ?_, fun n hn => ?_, hempty⟩
    · change e.chart.count + 1 = _
      omega
    · exact (hbody₁ n).trans (by rw [if_neg (by omega), hfree n (by omega)])
  have hloop : d.loop control (prepare.map (·.statement)) condition
      (next.map (·.statement)) inside = (do
        let d ← inside (e.extend.moveTo (base + 2))
        let d ← (d.push (next.map (·.statement))).close
          ((Tail.jump (base + 1)).statements control)
        let d' ← d.extend.sealState (base + 1)
          ((Tail.branch condition (base + 2) d.chart.count).statements control)
        return d'.moveTo d.chart.count) := by
    rw [Draft.loop, allocate_eq, hcount]
    dsimp only
    rw [he, pure_bind, allocate_eq, hcount₁, hcount]
    simp only [allocate_eq, choice_eq, pure_bind]
  rw [hloop]
  refine (hinside _ hstart).bind fun g b hg => ?_
  -- The last state of the body is closed, and then the test is sealed.
  obtain ⟨hopen, hholds, hbelow⟩ := hg
  obtain ⟨e₂, he₂, hempty₂, hcount₂, hbody₂⟩ := close_eq
    (d := g.push (next.map (·.statement))) (b.pending ++ next) control
    (.jump (base + 1)) hopen.current (by rw [List.map_append, ← hopen.pending]; rfl)
    (by change _ < g.chart.count; rw [hopen.count]; omega) (hopen.free _ (Nat.le_refl _))
  change e₂.chart.count = g.chart.count at hcount₂
  change ∀ n, _ = if n = base + 2 + b.closed.length then _ else g.chart.body? n at hbody₂
  rw [hopen.count] at hcount₂
  have hgap : e₂.chart.body? (base + 1) = none := by
    rw [hbody₂, if_neg (by omega), hbelow _ (by omega)]
    exact (hbody₁ _).trans (by rw [if_neg (by omega), hfree _ (by omega)])
  obtain ⟨e₃, he₃, -, hempty₃, hcount₃, hbody₃⟩ := sealState_eq (d := e₂.extend)
    (base + 1) ((Tail.branch condition (base + 2) e₂.chart.count).statements control)
    (by rw [count_extend, hcount₂]; omega) hgap
  rw [count_extend, hcount₂] at hcount₃
  simp only [body?_extend] at hbody₃
  rw [he₂, pure_bind, he₃, pure_bind, hcount₂]
  have hlength : base + (Fragment.loop base (pending ++ prepare) condition b next).closed.length
      = base + 2 + b.closed.length + 1 := by
    rw [Fragment.length_loop]
    omega
  have hkept (n : Nat) (hn : n ≠ base + 1) (hn' : n ≠ base + 2 + b.closed.length) :
      e₃.chart.body? n = g.chart.body? n := by
    rw [hbody₃, if_neg hn, hbody₂, if_neg hn']
  refine matches_pure ⟨?_, ?_, fun n hn => ?_⟩
  · rw [hlength]
    refine ⟨rfl, hcount₃, fun n hn => ?_, hempty₃.trans hempty₂⟩
    exact (hkept n (by omega) (by omega)).trans (hopen.free n (by omega))
  · have hbody : Holds control e₃.chart (base + 2) b.closed :=
      hholds.congr fun n _ _ => hkept n (by omega) (by omega)
    simp only [Fragment.loop, List.cons_append, holds_cons, holds_append, holds_nil, and_true]
    refine ⟨?_, ?_, hbody, ?_⟩
    · change e₃.chart.body? base = _
      rw [hkept base (by omega) (by omega), hbelow base (by omega)]
      exact (hbody₁ base).trans (if_pos rfl)
    · change e₃.chart.body? (base + 1) = _
      rw [hbody₃, if_pos rfl, hcount₂]
      rfl
    · change e₃.chart.body? (base + 1 + 1 + b.closed.length) = _
      rw [hbody₃, if_neg (by omega), hbody₂, if_pos (by omega)]
  · change e₃.chart.body? n = _
    rw [hkept n (by omega) (by omega), hbelow n (by omega)]
    exact (hbody₁ n).trans (if_neg (by omega))

/-! ### Conditionals -/

/-- Everything before state `base` is allocated, and no state from `base` on is sealed. -/
structure Ready (d : Draft) (base : Nat) : Prop where
  count : d.chart.count = base
  free : ∀ n, base ≤ n → d.chart.body? n = none

/-- The draft of an open state is ready for the state after it. -/
theorem Open.ready (h : d.Open base pending) : d.Ready (base + 1) :=
  ⟨h.count, fun n hn => h.free n (by omega)⟩

/-- **A branch** starts in a new state and grows the draft by its fragment. -/
theorem Ready.branch (h : d.Ready base) {inside : Draft → Build Draft} {y : Build Fragment}
    (hinside : ∀ e : Draft, e.Open base [] → Matches (Grows control base e) (inside e) y) :
    Matches (fun p f => p.1 = base ∧ p.2.1 = (p.2.2.current, p.2.2.pending) ∧
      Grows control base d p.2.2 f) (d.branch inside) y := by
  have hstart : (d.clear.extend.moveTo base).Open base [] :=
    ⟨rfl, congrArg (· + 1) h.count, h.free, rfl⟩
  have hbranch : d.branch inside = (do
      let e ← inside (d.clear.extend.moveTo base)
      return (base, (e.current, e.pending), e)) := by
    have hcount : d.clear.chart.count = base := h.count
    rw [Draft.branch, allocate_eq, hcount]
  rw [hbranch, ← bind_pure y]
  refine (hinside _ hstart).bind fun e f he => matches_pure ⟨rfl, rfl, ?_⟩
  exact ⟨he.opened, he.holds, he.below⟩

/-- **A conditional without an alternative** grows the draft by its fragment once its branch has
been read. -/
theorem Open.when (h : d.Open base pending) (condition : Expr .bool) {e : Draft} {f : Fragment}
    (he : Grows control (base + 1) d e f) :
    ∃ d', e.meet control d.current d.pending condition (base + 1) none
        [(e.current, e.pending)] = pure d' ∧
      Grows control base d d' (.when base pending condition f) := by
  obtain ⟨hcurrent, -, hfree, hpending⟩ := h
  obtain ⟨⟨hlast, hcount, hopen, htail⟩, hholds, hbelow⟩ := he
  -- The last state of the branch is sealed, and then the head.
  obtain ⟨e₁, he₁, -, hempty₁, hcount₁, hbody₁⟩ := sealState_eq (d := e.clear.extend)
    e.current
    (e.pending ++ (Tail.jump (base + 1 + f.closed.length + 1)).statements control)
    (by change _ < e.chart.count + 1; omega) (hopen _ (by omega))
  change e₁.chart.count = e.chart.count + 1 at hcount₁
  change ∀ n, _ = if n = e.current then _ else e.chart.body? n at hbody₁
  obtain ⟨e₂, he₂, -, hempty₂, hcount₂, hbody₂⟩ := sealState_eq (d := e₁) base
    (d.pending ++ (Tail.branch condition (base + 1)
      (base + 1 + f.closed.length + 1)).statements control)
    (by omega) (by rw [hbody₁, if_neg (by omega), hbelow _ (by omega), hfree _ (by omega)])
  have hmeet : e.meet control d.current d.pending condition (base + 1) none
      [(e.current, e.pending)] = pure (e₂.moveTo (base + 1 + f.closed.length + 1)) := by
    have hjoin : e.clear.chart.count = base + 1 + f.closed.length + 1 := hcount
    rw [Draft.meet, allocate_eq, hjoin]
    simp only [List.foldlM_cons, List.foldlM_nil, choice_eq, pure_bind, bind_pure,
      Option.getD_none, he₁, hcurrent, he₂]
  have hlength : base + (Fragment.when base pending condition f).closed.length
      = base + 1 + f.closed.length + 1 := by
    rw [Fragment.length_when]
    omega
  have hkept (n : Nat) (hn : n ≠ base) (hn' : n ≠ base + 1 + f.closed.length) :
      e₂.chart.body? n = e.chart.body? n := by
    rw [hbody₂, if_neg hn, hbody₁, if_neg (by omega)]
  refine ⟨_, hmeet, ?_, ?_, fun n hn => ?_⟩
  · rw [hlength]
    refine ⟨rfl, ?_, fun n hn => ?_, hempty₂.trans hempty₁⟩
    · exact hcount₂.trans (hcount₁.trans (by omega))
    · exact (hkept n (by omega) (by omega)).trans (hopen n (by omega))
  · have hbody : Holds control e₂.chart (base + 1) f.closed :=
      hholds.congr fun n _ _ => hkept n (by omega) (by omega)
    simp only [Fragment.when, List.cons_append, holds_cons, holds_append, holds_nil, and_true]
    refine ⟨?_, hbody, ?_⟩
    · change e₂.chart.body? base = _
      rw [hbody₂, if_pos rfl, hpending]
      rfl
    · change e₂.chart.body? (base + 1 + f.closed.length) = _
      rw [hbody₂, if_neg (by omega), hbody₁, if_pos (by omega), htail]
      rfl
  · change e₂.chart.body? n = _
    rw [hkept n (by omega) (by omega), hbelow n (by omega)]

/-- **A conditional with an alternative** grows the draft by its fragment once both branches have
been read. -/
theorem Open.either (h : d.Open base pending) (condition : Expr .bool) {e e' : Draft}
    {f g : Fragment} (he : Grows control (base + 1) d e f)
    (he' : Grows control (base + 1 + f.closed.length + 1) e e' g) :
    ∃ d', e'.meet control d.current d.pending condition (base + 1)
        (some (base + 1 + f.closed.length + 1))
        [(e.current, e.pending), (e'.current, e'.pending)] = pure d' ∧
      Grows control base d d' (.either base pending condition f g) := by
  obtain ⟨hcurrent, -, hfree, hpending⟩ := h
  obtain ⟨⟨hlast, -, hopen, htail⟩, hholds, hbelow⟩ := he
  obtain ⟨⟨hlast', hcount', hopen', htail'⟩, hholds', hbelow'⟩ := he'
  have hlength : base + (Fragment.either base pending condition f g).closed.length
      = base + 1 + f.closed.length + 1 + g.closed.length + 1 := by
    rw [Fragment.length_either]
    omega
  generalize hother : base + 1 + f.closed.length + 1 = other at *
  generalize hjoin : other + g.closed.length + 1 = join at *
  -- The last states of the branches are sealed, and then the head.
  obtain ⟨e₁, he₁, -, hempty₁, hcount₁, hbody₁⟩ := sealState_eq (d := e'.clear.extend)
    e.current (e.pending ++ (Tail.jump join).statements control)
    (by change _ < e'.chart.count + 1; omega)
    ((hbelow' _ (by omega)).trans (hopen _ (by omega)))
  change e₁.chart.count = e'.chart.count + 1 at hcount₁
  change ∀ n, _ = if n = e.current then _ else e'.chart.body? n at hbody₁
  obtain ⟨e₂, he₂, -, hempty₂, hcount₂, hbody₂⟩ := sealState_eq (d := e₁)
    e'.current (e'.pending ++ (Tail.jump join).statements control) (by omega)
    (by rw [hbody₁, if_neg (by omega), hopen' _ (by omega)])
  obtain ⟨e₃, he₃, -, hempty₃, hcount₃, hbody₃⟩ := sealState_eq (d := e₂) base
    (d.pending ++ (Tail.branch condition (base + 1) other).statements control) (by omega)
    (by rw [hbody₂, if_neg (by omega), hbody₁, if_neg (by omega), hbelow' _ (by omega),
      hbelow _ (by omega), hfree _ (by omega)])
  have hmeet : e'.meet control d.current d.pending condition (base + 1) (some other)
      [(e.current, e.pending), (e'.current, e'.pending)] = pure (e₃.moveTo join) := by
    have hcount : e'.clear.chart.count = join := by
      change e'.chart.count = join
      omega
    rw [Draft.meet, allocate_eq, hcount]
    simp only [List.foldlM_cons, List.foldlM_nil, choice_eq, pure_bind, bind_pure,
      Option.getD_some, he₁, he₂, hcurrent, he₃]
  have hkept (n : Nat) (hn : n ≠ base) (hn' : n ≠ base + 1 + f.closed.length)
      (hn'' : n ≠ other + g.closed.length) : e₃.chart.body? n = e'.chart.body? n := by
    rw [hbody₃, if_neg hn, hbody₂, if_neg (by omega), hbody₁, if_neg (by omega)]
  refine ⟨_, hmeet, ?_, ?_, fun n hn => ?_⟩
  · rw [hlength]
    refine ⟨rfl, ?_, fun n hn => ?_, hempty₃.trans (hempty₂.trans hempty₁)⟩
    · exact hcount₃.trans (hcount₂.trans (hcount₁.trans (by omega)))
    · exact (hkept n (by omega) (by omega) (by omega)).trans (hopen' n (by omega))
  · have hyes : Holds control e₃.chart (base + 1) f.closed := hholds.congr fun n _ _ =>
      (hkept n (by omega) (by omega) (by omega)).trans (hbelow' n (by omega))
    have hno : Holds control e₃.chart other g.closed :=
      hholds'.congr fun n _ _ => hkept n (by omega) (by omega) (by omega)
    simp only [Fragment.either, List.cons_append, List.append_assoc, holds_cons, holds_append,
      holds_nil, and_true, hother, hjoin]
    refine ⟨?_, hyes, ?_, hno, ?_⟩
    · change e₃.chart.body? base = _
      rw [hbody₃, if_pos rfl, hpending]
      rfl
    · change e₃.chart.body? (base + 1 + f.closed.length) = _
      rw [hbody₃, if_neg (by omega), hbody₂, if_neg (by omega), hbody₁, if_pos (by omega), htail]
      rfl
    · change e₃.chart.body? (other + g.closed.length) = _
      rw [hbody₃, if_neg (by omega), hbody₂, if_pos (by omega), htail']
      rfl
  · change e₃.chart.body? n = _
    rw [hkept n (by omega) (by omega) (by omega), hbelow' n (by omega), hbelow n (by omega)]

/-! ### Scripts -/

/-- **Drafts grow by fragments.** While state `base` is open, adding a script to a draft has the
same outcome as compiling the script, and the draft grows by the fragment that compilation
gives. -/
theorem addAll_matches (control : SequenceControl) {base : Nat} {pending : List Work}
    {items : List Statement} {d : Draft} (h : d.Open base pending) :
    Matches (Grows control base d) (addAll control d items)
      (compileAll control.index base pending items) := by
  induction base, pending, items using compileAll.induct
    (fun base pending s => ∀ {d : Draft}, d.Open base pending →
      Matches (Grows control base d) (add control d s) (compile control.index base pending s))
    generalizing d with
  | case1 base pending c h =>
      rw [add, compile]
      exact matches_pure (h.push (.placed (.command c)))
  | case2 base pending items ih h =>
      rw [add, compile]
      exact ih h
  | case3 base pending microseconds h =>
      obtain ⟨d', hd', hgrows⟩ := h.wait (.delay (seconds microseconds))
      rw [add, compile, hd']
      exact matches_pure hgrows
  | case4 base pending event h =>
      rw [add, compile]
      refine matches_bind_left fun number => ?_
      obtain ⟨d', hd', hgrows⟩ := h.wait (.signal number)
      rw [hd']
      exact matches_pure hgrows
  | case5 base pending state label h =>
      rw [add, compile]
      exact matches_pure (h.push (.placed (.command state.toggle)))
  | case6 base pending condition yes no ihy ihn h =>
      rw [add, compile]
      refine (h.ready.branch fun e he => ihy he).bind ?_
      rintro ⟨entry, tail, e⟩ y ⟨hentry, htail, he⟩
      dsimp only at hentry htail he ⊢
      subst hentry htail
      split
      · obtain ⟨d', hd', hgrows⟩ := h.when condition he
        rw [hd']
        exact matches_pure hgrows
      · refine (he.opened.ready.branch fun e he => ihn y he).bind ?_
        rintro ⟨other, tail, e'⟩ n ⟨hother, htail, he'⟩
        dsimp only at hother htail he' ⊢
        subst hother htail
        obtain ⟨d', hd', hgrows⟩ := h.either condition he he'
        rw [hd']
        exact matches_pure hgrows
  | case7 base pending count body ih h =>
      rw [add, compile]
      refine matches_bind_left fun counter => ?_
      exact h.loop _ [.counting (counter.assign (.integer 0))] [.counting counter.increment]
        fun e he => ih he
  | case8 base pending condition body ih h =>
      have hloop := h.loop condition [] [] fun e he => ih he
      rw [List.append_nil] at hloop
      rw [add, compile]
      exact hloop
  | case9 base pending start condition next body ih h =>
      rw [add, compile]
      exact h.loop condition [.placed (.command start)] [.placed (.command next)]
        fun e he => ih he
  | case10 base pending header body hcase h =>
      rw [add, compile, if_pos hcase, if_pos hcase]
      exact matches_fail _
  | case11 base pending header body hcase h =>
      rw [add, compile, if_neg hcase, if_neg hcase]
      exact matches_pure (h.push (.placed (.block (.raw header) body)))
  | case12 base pending event body hcase h =>
      rw [add, compile, if_pos hcase, if_pos hcase]
      exact matches_fail _
  | case13 base pending event body hcase h =>
      rw [add, compile, if_neg hcase, if_neg hcase]
      exact matches_fail _
  | case14 base pending scrutinee arms h =>
      rw [add, compile]
      exact matches_fail _
  | case15 base pending =>
      rw [addAll, compileAll]
      exact matches_pure ⟨h, holds_nil, fun _ _ => rfl⟩
  | case16 base pending s rest ih ihr =>
      rw [addAll, compileAll]
      refine (ih h).bind fun d₁ f hf => ?_
      rw [← bind_pure (addAll control d₁ rest)]
      exact (ihr f hf.opened).bind fun d₂ g hg => matches_pure (hf.trans hg)

/-! ### Finished drafts -/

/-- **The end of a script.** The states of the whole flow are sealed, and there are no others. The
result is the state that finishes. -/
theorem Grows.finish {d₀ : Draft} {f : Fragment} (h : Grows control 0 d₀ d f) :
    ∃ e, d.finish control = pure (f.last, e) ∧ e.chart.count = f.finish.length ∧
      Holds control e.chart 0 f.finish := by
  obtain ⟨⟨hcurrent, hcount, hfree, hpending⟩, hholds, -⟩ := h
  rw [Nat.zero_add] at hcurrent hcount hfree
  have hempty : d.pending.isEmpty = f.pending.isEmpty := by
    rw [hpending, List.isEmpty_map]
  rw [Draft.finish, Fragment.finish, Fragment.last, hempty]
  split
  case isTrue hnil =>
      have hnil := List.isEmpty_iff.mp hnil
      obtain ⟨e, he, -, hcount₁, hbody₁⟩ := close_eq f.pending control .finish hcurrent hpending
        (by omega) (hfree _ (Nat.le_refl _))
      refine ⟨e, ?_, by rw [hcount₁, hcount, List.length_append, List.length_singleton], ?_⟩
      · change (do return (d.current, ← d.close ((Tail.finish).statements control))) = _
        rw [he, pure_bind, hcurrent]
      rw [holds_append, Nat.zero_add]
      refine ⟨hholds.congr fun n _ hn => ?_, holds_cons.mpr ⟨?_, holds_nil⟩⟩
      · rw [hbody₁, if_neg (by omega)]
      · rw [hbody₁, if_pos rfl, hnil]
  case isFalse =>
      obtain ⟨e₁, he₁, -, hcount₁, hbody₁⟩ := close_eq (d := d.extend) f.pending control
        (.jump (f.closed.length + 1)) hcurrent hpending (by rw [count_extend]; omega)
        (hfree _ (Nat.le_refl _))
      rw [count_extend, hcount] at hcount₁
      simp only [body?_extend] at hbody₁
      obtain ⟨e₂, he₂, -, -, hcount₂, hbody₂⟩ := sealState_eq (d := e₁)
        (f.closed.length + 1) [.command .finish] (by omega)
        (by rw [hbody₁, if_neg (by omega), hfree _ (by omega)])
      refine ⟨e₂, ?_, ?_, ?_⟩
      · rw [allocate_eq, hcount]
        dsimp only
        rw [he₁, pure_bind, he₂, pure_bind]
      · rw [hcount₂, hcount₁, List.length_append]
        rfl
      · rw [holds_append, Nat.zero_add]
        refine ⟨hholds.congr fun n _ hn => ?_, holds_cons.mpr ⟨?_, holds_cons.mpr ⟨?_, holds_nil⟩⟩⟩
        · rw [hbody₂, if_neg (by omega), hbody₁, if_neg (by omega)]
        · rw [hbody₂, if_neg (by omega), hbody₁, if_pos rfl]
        · rw [hbody₂, if_pos rfl]
          rfl

end Draft

/-- The states of a chart are read one after the other. -/
theorem Holds.mapM_eq {control : SequenceControl} {chart : StateChart} {base : Nat}
    {states : List State} (h : Holds control chart base states) :
    (List.range' base states.length).mapM chart.sealedBody?
      = .ok (states.map (·.statements control)) := by
  induction states generalizing base with
  | nil => rfl
  | cons s rest ih =>
      obtain ⟨hs, hrest⟩ := holds_cons.mp h
      have hbody : chart.sealedBody? base = .ok (s.statements control) := by
        rw [StateChart.sealedBody?, hs]
      rw [List.length_cons, List.range'_succ, List.mapM_cons, hbody, ih hrest]
      rfl

/-- **A chart without gaps** becomes the case over its states. -/
theorem Holds.case?_eq {control : SequenceControl} {chart : StateChart} {flow : Flow}
    (h : Holds control chart 0 flow) (hcount : chart.count = flow.length) :
    chart.case? control.state.expr = .ok (flow.case control) := by
  rw [StateChart.case?, List.range_eq_range', hcount, h.mapM_eq]
  rfl

end Sequence

/-- The block that drives a sequence passes all checks. -/
theorem SequenceControl.driver?_eq (c : SequenceControl) (tolerance : Option Float) :
    c.driver? tolerance = .ok (.block (.onEvent (c.timer tolerance)) [c.resumeOn 0]) := by
  cases tolerance <;> rfl

/-- **Both ways to compile a sequence are the same.** No seal of a state is refused on the way, and
no state stays open. -/
theorem Module.draftedSequence_eq (guard : Expr .bool) (items : List Statement) :
    Module.draftedSequence guard items = Module.sequence guard items := by
  refine Matches.eq (matches_bind_left fun m => matches_bind_left fun _ =>
    matches_bind_left fun _ => matches_bind_left fun m' => ?_)
  rw [SequenceControl.driver?_eq, ofExcept_of_ok, pure_bind]
  refine matches_bind_left fun _ => ?_
  refine (Sequence.Draft.addAll_matches _ Sequence.Draft.start_open).bind fun d f hf => ?_
  obtain ⟨e, he, hcount, hholds⟩ := hf.finish
  rw [he, pure_bind]
  dsimp only
  rw [hholds.case?_eq hcount, ofExcept_of_ok, pure_bind, hcount]
  exact matches_refl _

end Stimulus
