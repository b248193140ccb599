import Stimulus.Proofs.Run.Sequencer

/-!
# A turn of a sequence

While a sequence has its turn, its code stands at a place that meets the frames of its thread. Each
move of the thread is answered by the code, which then stands at a place that meets the frames after
the move. The code may stand still only where the thread leaves a list or enters one.

## Main definitions

* `Compiled.At`: the code of a sequence stands at a place that meets some frames.
* `Code.Answer`: the code answers a move.

## Main results

* `Code.answer`: every move of a thread is answered.
-/

namespace Stimulus

open Machine Sequence

/-! ### Frames -/

/-- The parts of a script that a frame still has to run. -/
def Frame.parts : Frame → List Part
  | .run items => partsOf items
  | .test condition body => .condition condition :: partsOf body
  | .rounds _ _ count body => .count count :: partsOf body

mutual

/-- How often a statement is a list that has to be entered and left. -/
def Statement.weight : Statement → Nat
  | .list items => weightOf items
  | _ => 0

/-- How often lists have to be entered and left in some statements. -/
def weightOf : List Statement → Nat
  | [] => 1
  | s :: rest => s.weight + weightOf rest

end

/-- For how long a thread can do no more than entering and leaving lists. -/
def weight : List Frame → Nat
  | [] => 0
  | .run items :: frames => weightOf items + weight frames
  | _ :: frames => weight frames

/-- Leaving a list makes a thread lighter. -/
theorem weight_nil (frames : List Frame) : weight frames < weight (.run [] :: frames) := by
  simp [weight, weightOf]

/-- Entering a list makes a thread lighter. -/
theorem weight_list (items left : List Statement) (frames : List Frame) :
    weight (.run (items ++ left) :: frames) < weight (.run (.list items :: left) :: frames) := by
  have happend : weightOf (items ++ left) + 1 = weightOf items + weightOf left := by
    induction items with
    | nil => rw [List.nil_append, weightOf, Nat.add_comm]
    | cons s items ih =>
        rw [List.cons_append, weightOf, weightOf]
        omega
  simp only [weight, weightOf, Statement.weight]
  omega

/-! ### Places -/

namespace Compiled

variable {R : Type} (c : Compiled)

/-- The variables that change while the sequence has its turn, unless it waits. -/
def volatile : List String :=
  c.control.state.name :: c.control.running.name :: c.counters

/-- The code of a sequence stands at a place that meets some frames, and its counters hold what they
are expected to hold. -/
def At (number : Event → Nat) (st : Store R) (ws : List Work) (tail : Tail)
    (frames : List Frame) : Prop :=
  ∃ expected, Meets number c.flow c.counters ws tail frames expected ∧
    ∀ q ∈ expected, st q.1 = .integer q.2

/-- After some steps the sequence still has its turn, and it stands at a place that meets some
frames. -/
structure Underway (number : Event → Nat) (owned : List String) (st st' su : Store R)
    (ws : List Work) (tail : Tail) (frames : List Frame) : Prop where
  at_place : c.At number st' ws tail frames
  running : st' c.control.running.name = .integer 0
  agree : Store.AgreeOff owned st' su
  same : ∀ x ∈ owned, x ∉ c.volatile → st' x = st x

/-- After some steps the sequence has ended its turn. Its state is a place that meets some
frames. -/
structure Stopped (number : Event → Nat) (owned : List String) (st st' su : Store R)
    (frames : List Frame) : Prop where
  at_state : ∃ (i : Nat) (ws : List Work) (tail : Tail),
    st' c.control.state.name = .integer i ∧ c.flow[i]? = some ⟨ws, tail⟩ ∧
      c.At number st' ws tail frames
  running : st' c.control.running.name = .integer 0
  agree : Store.AgreeOff owned st' su
  same : ∀ x ∈ owned, x ∉ c.names → st' x = st x

end Compiled

namespace Code

variable {R : Type} (M : Meaning R) (p : Code) (owned : List String) (c : Compiled)
  (number : Event → Nat) (index : Nat) (stack : List Item) (firings : List (Firing R))

/-- The code of a sequence that has its turn **answers** a move: from a configuration, in which it
meets some frames, it gets to where it meets the frames after the move, and it logs what the move
does. It may take no step only if the frames get lighter. -/
def Answer (su : Store R) (frames : List Frame) (a : Config R) (st : Store R) : Move R → Prop
  | .pass frames' => ∃ n st' ws tail,
      Steps (outward M p owned) n a [] ⟨st', turnFrom c index ws tail stack, firings⟩ ∧
      (0 < n ∨ weight frames' < weight frames) ∧
      c.Underway number owned st st' su ws tail frames'
  | .perform s frames' =>
    (M.perform s su = none ∧ ∃ n st', 0 < n ∧
      Steps (outward M p owned) n a [.performed index s] ⟨st', [], []⟩) ∨
    ∃ su', M.perform s su = some su' ∧ ∃ n st' ws tail, 0 < n ∧
      Steps (outward M p owned) n a [.performed index s]
        ⟨st', turnFrom c index ws tail stack, firings⟩ ∧
      c.Underway number owned st st' su' ws tail frames'
  | .delay due frames' => ∃ st', Quietly M p owned a ⟨st', stack, firings⟩ ∧
      c.Stopped number owned st st' su frames' ∧
      st' c.control.event.name = .integer 0 ∧ st' c.control.time.name = due
  | .await text frames' => ∃ st', Quietly M p owned a ⟨st', stack, firings⟩ ∧
      c.Stopped number owned st st' su frames' ∧
      (∃ event, .signal event ∈ frames.flatMap (·.parts) ∧ event.text = text ∧
        st' c.control.event.name = .integer (number event)) ∧
      st' c.control.time.name = st c.control.time.name

variable {M p owned c number index stack firings} {st st₁ su : Store R} {a b : Config R}
  {frames : List Frame}

/-- What changes only in volatile variables, and then changes otherwise. -/
theorem same_trans {touched : List String} (hsub : ∀ x ∈ c.volatile, x ∈ touched)
    {st' : Store R} (h : ∀ x ∈ owned, x ∉ c.volatile → st₁ x = st x)
    (h' : ∀ x ∈ owned, x ∉ touched → st' x = st₁ x) :
    ∀ x ∈ owned, x ∉ touched → st' x = st x :=
  fun x hx hnew => (h' x hx hnew).trans (h x hx fun hv => hnew (hsub x hv))

/-- The volatile variables are variables of the sequence. -/
theorem volatile_subset : ∀ x ∈ c.volatile, x ∈ c.names := by
  intro x hx
  simp only [Compiled.volatile, List.mem_cons] at hx
  simp only [Compiled.names, SequenceControl.names, List.mem_append, List.mem_cons]
  tauto

/-- The time is not volatile. -/
theorem time_notMem_volatile (hb : c.Books owned) : c.control.time.name ∉ c.volatile := by
  obtain ⟨hts, htr, -, -⟩ := c.control.names_ne
  simp only [Compiled.volatile, List.mem_cons, not_or]
  refine ⟨hts, htr, fun hcounter => hb.counter_notMem hcounter ?_⟩
  simp [SequenceControl.names]

/-- The number of the event is not volatile. -/
theorem event_notMem_volatile (hb : c.Books owned) : c.control.event.name ∉ c.volatile := by
  obtain ⟨-, -, -, -, hse, hre⟩ := c.control.names_ne
  simp only [Compiled.volatile, List.mem_cons, not_or]
  refine ⟨hse.symm, hre.symm, fun hcounter => hb.counter_notMem hcounter ?_⟩
  simp [SequenceControl.names]

/-- An answer may be preceded by quiet steps that change only volatile variables. -/
theorem Answer.after (hb : c.Books owned) (hquiet : Quietly M p owned a b)
    (hsame : ∀ x ∈ owned, x ∉ c.volatile → st₁ x = st x) {move : Move R}
    (h : Answer M p owned c number index stack firings su frames b st₁ move) :
    Answer M p owned c number index stack firings su frames a st move := by
  obtain ⟨k, hk, hsteps⟩ := hquiet
  cases move with
  | pass frames' =>
      obtain ⟨n, st', ws, tail, hsteps', -, hat, hrun, hagree, hsame'⟩ := h
      exact ⟨k + n, st', ws, tail, hsteps.trans hsteps', .inl (by omega), hat, hrun, hagree,
        same_trans (fun _ hx => hx) hsame hsame'⟩
  | perform s frames' =>
      rcases h with ⟨hp, n, st', hn, hsteps'⟩ | ⟨su', hp, n, st', ws, tail, hn, hsteps', hunder⟩
      · exact .inl ⟨hp, k + n, st', by omega, hsteps.trans hsteps'⟩
      · obtain ⟨hat, hrun, hagree, hsame'⟩ := hunder
        exact .inr ⟨su', hp, k + n, st', ws, tail, by omega, hsteps.trans hsteps', hat, hrun,
          hagree, same_trans (fun _ hx => hx) hsame hsame'⟩
  | delay due frames' =>
      obtain ⟨st', hquiet', ⟨hstate, hrun, hagree, hsame'⟩, hevent, htime⟩ := h
      exact ⟨st', Quietly.trans ⟨k, hk, hsteps⟩ hquiet'.silently,
        ⟨hstate, hrun, hagree, same_trans volatile_subset hsame hsame'⟩, hevent, htime⟩
  | await text frames' =>
      obtain ⟨st', hquiet', ⟨hstate, hrun, hagree, hsame'⟩, hevent, htime⟩ := h
      exact ⟨st', Quietly.trans ⟨k, hk, hsteps⟩ hquiet'.silently,
        ⟨hstate, hrun, hagree, same_trans volatile_subset hsame hsame'⟩, hevent,
        htime.trans (hsame _ hb.time_mem (time_notMem_volatile hb))⟩

/-! ### Single steps of a place -/

section OnlyIn

variable {st' : Store R} {ws : List Work} {tail : Tail} {expected : Expected}

/-- Counters keep their values when only control variables change. -/
theorem OnlyIn.hold (h : OnlyIn c.control.names st st') (hb : c.Books owned)
    (hmeets : Meets number c.flow c.counters ws tail frames expected)
    (hhold : ∀ q ∈ expected, st q.1 = .integer q.2) : ∀ q ∈ expected, st' q.1 = .integer q.2 := by
  intro q hq
  rw [h _ (hb.counter_notMem (hmeets.expected_mem q hq)), hhold q hq]

/-- A store goes on to agree with another one when only control variables change. -/
theorem OnlyIn.agree (h : OnlyIn c.control.names st st') (hb : c.Books owned)
    (hagree : Store.AgreeOff owned st su) : Store.AgreeOff owned st' su := by
  intro x hx
  rw [h x fun hc => hx (hb.owned x (List.mem_append_left _ hc)), hagree x hx]

/-- What changes when a sequence goes on to another state. -/
theorem OnlyIn.controls
    (h : OnlyIn [c.control.state.name, c.control.running.name] st st') :
    OnlyIn c.control.names st st' := by
  refine fun x hx => h x fun hx' => hx ?_
  simp only [List.mem_cons, List.not_mem_nil, or_false] at hx'
  simp only [SequenceControl.names, List.mem_cons]
  tauto

/-- Going on to another state changes only volatile variables. -/
theorem OnlyIn.same (h : OnlyIn [c.control.state.name, c.control.running.name] st st') :
    ∀ x ∈ owned, x ∉ c.volatile → st' x = st x := by
  refine fun x _ hvol => h x fun hx' => hvol ?_
  simp only [List.mem_cons, List.not_mem_nil, or_false] at hx'
  simp only [Compiled.volatile, List.mem_cons]
  tauto

/-- Where a sequence stands after it has gone on to another state. -/
theorem underway_of_onlyIn (hb : c.Books owned)
    (hmeets : Meets number c.flow c.counters ws tail frames expected)
    (hhold : ∀ q ∈ expected, st q.1 = .integer q.2) (hagree : Store.AgreeOff owned st su)
    (hrun : st' c.control.running.name = .integer 0)
    (honly : OnlyIn [c.control.state.name, c.control.running.name] st st') :
    c.Underway number owned st st' su ws tail frames :=
  ⟨⟨expected, hmeets, honly.controls.hold hb hmeets hhold⟩, hrun, honly.controls.agree hb hagree,
    honly.same⟩

/-- Where a sequence has ended its turn. -/
theorem stopped_of_onlyIn (hb : c.Books owned) {i : Nat}
    (hnext : MeetsAt number c.flow c.counters i frames expected)
    (hhold : ∀ q ∈ expected, st q.1 = .integer q.2) (hagree : Store.AgreeOff owned st su)
    (hstate : st' c.control.state.name = .integer i)
    (hrun : st' c.control.running.name = .integer 0) (honly : OnlyIn c.control.names st st') :
    c.Stopped number owned st st' su frames := by
  obtain ⟨ws, tail, hflow, hmeets⟩ := hnext
  exact ⟨⟨i, ws, tail, hstate, hflow, expected, hmeets, honly.hold hb hmeets hhold⟩, hrun,
    honly.agree hb hagree, fun x _ hx => honly x fun hc => hx (List.mem_append_left _ hc)⟩

end OnlyIn

/-- A jump answers a move to the frames that are met where it leads. -/
theorem answer_jump (hM : M.Lawful) (hb : c.Books owned) {next : Nat} {expected : Expected}
    {frames' : List Frame} (hnext : MeetsAt number c.flow c.counters next frames' expected)
    (hhold : ∀ q ∈ expected, st q.1 = .integer q.2) (hagree : Store.AgreeOff owned st su) :
    Answer M p owned c number index stack firings su frames
      ⟨st, turnFrom c index [] (.jump next) stack, firings⟩ st (.pass frames') := by
  obtain ⟨ws, tail, hnext, hmeets⟩ := hnext
  obtain ⟨st', ⟨n, hn, hsteps⟩, hrun, honly⟩ := tail_jump index stack firings hM hb hnext
  exact ⟨n, st', ws, tail, hsteps, .inl hn,
    underway_of_onlyIn hb hmeets hhold hagree hrun honly⟩

/-- A branch answers a move to the frames that are met where it leads. -/
theorem answer_branch (hM : M.Lawful) (hb : c.Books owned) {condition : Expr .bool}
    {yes no : Nat} {holds : Bool}
    (hcond : M.bool condition (st.set c.control.running.name (.integer 1)) = holds)
    {expected : Expected} {frames' : List Frame}
    (hnext : MeetsAt number c.flow c.counters (if holds then yes else no) frames' expected)
    (hhold : ∀ q ∈ expected, st q.1 = .integer q.2) (hagree : Store.AgreeOff owned st su) :
    Answer M p owned c number index stack firings su frames
      ⟨st, turnFrom c index [] (.branch condition yes no) stack, firings⟩ st
      (.pass frames') := by
  obtain ⟨ws, tail, hnext, hmeets⟩ := hnext
  obtain ⟨st', ⟨n, hn, hsteps⟩, hrun, honly⟩ :=
    tail_branch index stack firings hM hb hcond hnext
  exact ⟨n, st', ws, tail, hsteps, .inl hn,
    underway_of_onlyIn hb hmeets hhold hagree hrun honly⟩

/-- A condition that ignores the owned variables holds while the sequence runs on exactly if it
holds for the thread. -/
theorem bool_running (hb : c.Books owned) {condition : Expr .bool}
    (hignores : M.Ignores owned (.condition condition)) (hagree : Store.AgreeOff owned st su) :
    M.bool condition (st.set c.control.running.name (.integer 1)) = M.bool condition su :=
  hignores _ _ (hagree.set hb.running_mem _)

/-- What stands in a state for a statement of a script is performed as it is. -/
theorem expand_of_placed {s t : Statement} (hs : s.placed? = some t) (st : Store R) :
    M.expand st t = none := by
  revert hs
  fun_cases Statement.placed? s <;> rintro ⟨⟩ <;> rfl

/-- A statement of the script is performed. -/
theorem answer_placed (hb : c.Books owned) {t : Statement} {ws : List Work}
    {tail : Tail} {expected : Expected} {frames' : List Frame} {s : Statement}
    (hs : s.placed? = some t)
    (hignores : M.Ignores owned (.plain t))
    (hmeets : Meets number c.flow c.counters ws tail frames' expected)
    (hhold : ∀ q ∈ expected, st q.1 = .integer q.2)
    (hrun : st c.control.running.name = .integer 0) (hagree : Store.AgreeOff owned st su) :
    Answer M p owned c number index stack firings su frames
      ⟨st, turnFrom c index (.placed t :: ws) tail stack, firings⟩ st (.perform t frames') := by
  obtain ⟨⟨hreads, hwrites⟩, hout⟩ := hignores
  have hexpand := expand_of_placed (M := M) hs st
  -- The two stores differ in owned variables only, so that the statement ends both runs or neither.
  have hrel := hreads st su hagree
  cases hp : M.perform t st with
  | none =>
      rw [hp] at hrel
      cases hp' : M.perform t su with
      | none => exact .inl ⟨hp', 1, st, Nat.one_pos, steps_end hexpand hp hout⟩
      | some su' =>
          rw [hp'] at hrel
          cases hrel
  | some st' =>
      rw [hp] at hrel
      cases hp' : M.perform t su with
      | none =>
          rw [hp'] at hrel
          cases hrel
      | some su' =>
          rw [hp'] at hrel
          obtain hagree' : Store.AgreeOff owned st' su' := by
            cases hrel with
            | some h => exact h
          have hsame := hwrites st st' hp
          refine .inr ⟨su', hp', 1, st', ws, tail, Nat.one_pos, steps_perform hexpand hp hout,
            ⟨expected, hmeets, fun q hq => ?_⟩, ?_, hagree', fun x hx _ => hsame x hx⟩
          · rw [hsame _ (hb.counter_mem (hmeets.expected_mem q hq)), hhold q hq]
          · rw [hsame _ hb.running_mem, hrun]

/-- The end of a script is answered. -/
theorem answer_finish (hM : M.Lawful) :
    Answer M p owned c number index stack firings su frames
      ⟨st, turnFrom c index [] .finish stack, firings⟩ st (.perform (.command .finish) []) :=
  .inl ⟨hM.finish su, 1, st, Nat.one_pos, steps_end rfl (hM.finish st) (by
    intro x hx
    cases hx)⟩

/-! ### The statements of a script -/

/-- The move at a statement that stands in a state as it is. -/
theorem nextOf_of_placed {s t : Statement} (hs : s.placed? = some t) (left : List Statement)
    (frames : List Frame) : M.nextOf su s left frames = .perform t (.run left :: frames) := by
  revert hs
  fun_cases Statement.placed? s <;> rintro ⟨⟩ <;> rfl

/-- What stands in a state for a statement of a script is a part of it. -/
theorem plain_mem_of_placed {s t : Statement} (hs : s.placed? = some t) :
    .plain t ∈ s.parts := by
  revert hs
  fun_cases Statement.placed? s <;> rintro ⟨⟩ <;> simp [Statement.parts]

section Script

variable {base : Nat} {pending more ws : List Work} {last tail : Tail} {expected : Expected}
  {rest : List Statement}

/-- A wait of a script is answered. -/
theorem answer_wait (hM : M.Lawful) (hb : c.Books owned) {s : Statement}
    (hs : s.waitTail? number (base + 1) = some tail)
    (hignores : ∀ q ∈ s.parts, M.Ignores owned q)
    (hnext : MeetsAt number c.flow c.counters (base + 1) (.run rest :: frames) expected)
    (hhold : ∀ q ∈ expected, st q.1 = .integer q.2)
    (hrun : st c.control.running.name = .integer 0) (hagree : Store.AgreeOff owned st su) :
    Answer M p owned c number index stack firings su (.run (s :: rest) :: frames)
      ⟨st, turnFrom c index [] tail stack, firings⟩ st
      (M.nextOf su s rest frames) := by
  revert hs hignores
  fun_cases Statement.waitTail? number (base + 1) s with
  | case1 d =>
      rintro ⟨⟩ hignores
      obtain ⟨st', hquiet, hevent, hstate, ⟨sv, hsv, htime⟩, hrun', honly⟩ :=
        tail_delay (p := p) index stack firings hM hb hrun (seconds d) (base + 1)
      refine ⟨st', hquiet, stopped_of_onlyIn hb hnext hhold hagree hstate hrun' honly,
        hevent, ?_⟩
      have hd : M.Ignores owned (.delay d) := hignores _ (by simp [Statement.parts])
      rw [htime, hd sv su (hsv.agree hb hagree)]
  | case2 event =>
      rintro ⟨⟩ -
      obtain ⟨st', hquiet, hevent, hstate, htime, hrun', honly⟩ :=
        tail_signal (p := p) index stack firings hM hb hrun (number event) (base + 1)
      refine ⟨st', hquiet, stopped_of_onlyIn hb hnext hhold hagree hstate hrun' honly,
        ⟨event, ?_, rfl, hevent⟩, htime⟩
      simp [Frame.parts, partsOf, Statement.parts]
  | case3 => rintro ⟨⟩

/-- Where a script ends whose first fragment has been passed. -/
theorem end_of_andThen {f g : Fragment} {k : Nat} (hk : k = base + f.closed.length)
    (hend : c.flow[base + (f.andThen g).closed.length]?
      = some ⟨(f.andThen g).pending ++ more, last⟩) :
    c.flow[k + g.closed.length]? = some ⟨g.pending ++ more, last⟩ := by
  rw [Fragment.length_andThen, ← Nat.add_assoc, ← hk] at hend
  exact hend

/-- A conditional of a script is answered. -/
theorem answer_conditional (hM : M.Lawful) (hb : c.Books owned) {condition : Expr .bool}
    {entry other : Nat} {yes no : List Statement}
    (hyes : MeetsAt number c.flow c.counters entry (.run yes :: frames) expected)
    (hno : MeetsAt number c.flow c.counters other (.run no :: frames) expected)
    (hignores : M.Ignores owned (.condition condition))
    (hhold : ∀ q ∈ expected, st q.1 = .integer q.2) (hagree : Store.AgreeOff owned st su)
    {around : List Frame} :
    Answer M p owned c number index stack firings su around
      ⟨st, turnFrom c index [] (.branch condition entry other) stack, firings⟩ st
      (.pass (.run (if M.bool condition su then yes else no) :: frames)) := by
  refine answer_branch hM hb (bool_running hb hignores hagree) ?_ hhold hagree
  cases M.bool condition su with
  | true => exact hyes
  | false => exact hno

/-- A change of a counter is not logged. -/
theorem quietly_counting (hb : c.Books owned) {x : String} (hx : x ∈ c.counters) {command : Command}
    (htarget : command.target? = some x) {ws : List Work} {d : Datum R}
    (hp : M.perform (.command command) st = some (st.set x d)) :
    Quietly M p owned ⟨st, turnFrom c index (.counting command :: ws) tail stack, firings⟩
      ⟨st.set x d, turnFrom c index ws tail stack, firings⟩ :=
  .of_step (steps_keep htarget (hb.counter_mem hx) hp) (.refl _)

/-- A counter is volatile. -/
theorem same_of_counter {x : String} (hx : x ∈ c.counters) (d : Datum R) :
    ∀ y ∈ owned, y ∉ c.volatile → st.set x d y = st y := by
  intro y _ hy
  refine st.set_of_ne d ?_
  rintro rfl
  exact hy (List.mem_cons_of_mem _ (List.mem_cons_of_mem _ hx))

/-- The expected values of other counters are kept. -/
theorem hold_of_counter {x : String} (hfresh : x ∉ expected.map (·.1)) {n : Nat}
    (hhold : ∀ q ∈ expected, st q.1 = .integer q.2) :
    ∀ q ∈ (x, n) :: expected, st.set x (.integer n) q.1 = .integer q.2 := by
  intro q hq
  rcases List.mem_cons.mp hq with rfl | hq
  · exact st.set_self ..
  · rw [st.set_of_ne _ fun (heq : q.1 = x) => hfresh (heq ▸ List.mem_map_of_mem hq), hhold q hq]

/-- A loop of a script is answered: the thread gets in front of its test. -/
theorem answer_loop (hM : M.Lawful) (hb : c.Books owned) {s : Statement} {prepare next : List Work}
    {condition : Expr .bool} {body : List Statement} {own cs : List String} {b : Fragment}
    {exit : Nat} (hs : LoopShape s prepare condition next body own)
    (hbody : Layout number (base + 2) [] body cs b)
    (htest : c.flow[base + 1]? = some ⟨[], .branch condition (base + 2) exit⟩)
    (hplaced : Placed c.flow (base + 2) b.closed)
    (hlast : c.flow[base + 2 + b.closed.length]? = some ⟨b.pending ++ next, .jump (base + 1)⟩)
    (hnext : MeetsAt number c.flow c.counters exit (.run rest :: frames) expected)
    (hfit : Fit c.counters (own ++ cs) expected)
    (hignores : ∀ q ∈ s.parts, M.Ignores owned q)
    (hhold : ∀ q ∈ expected, st q.1 = .integer q.2)
    (hrun : st c.control.running.name = .integer 0) (hagree : Store.AgreeOff owned st su)
    {around : List Frame} :
    Answer M p owned c number index stack firings su around
      ⟨st, turnFrom c index prepare (.jump (base + 1)) stack, firings⟩ st
      (M.nextOf su s rest frames) := by
  cases hs with
  | whileLoop =>
      exact answer_jump hM hb (hnext.test htest ⟨cs, b, hbody, hplaced, hlast, hfit⟩) hhold hagree
  | forLoop start condition step =>
      -- The step stands behind the body, as if it were its last statement.
      have hwhole : Layout number (base + 2) [] (body ++ [.command step]) (cs ++ [])
          (b.andThen ⟨[], b.pending ++ [.placed (.command step)]⟩) :=
        hbody.append (.work rfl .nil)
      have hbody' : Body number c.flow c.counters expected (base + 1) (base + 2) []
          (body ++ [.command step]) := by
        refine ⟨_, _, hwhole, ?_, ?_, by simpa using hfit⟩
        · simpa [Fragment.andThen] using hplaced
        · simpa [Fragment.andThen] using hlast
      have hstart : M.Ignores owned (.plain (.command start)) :=
        hignores _ (by simp [Statement.parts])
      exact answer_placed hb (s := .command start) rfl hstart (hnext.test htest hbody').jump hhold
        hrun hagree
  | repeatLoop count body counter =>
      -- In the script the rounds are in the frame, in the code they are in the counter.
      have hx : counter.name ∈ c.counters := hfit.subset _ List.mem_cons_self
      have hfresh : counter.name ∉ expected.map (·.1) := hfit.fresh _ List.mem_cons_self
      have hbody' (i : Nat) : Body number c.flow c.counters ((counter.name, i) :: expected)
          (base + 1) (base + 2) [.counting (.increment counter.name)] body := by
        refine ⟨cs, b, hbody, hplaced, hlast, ?_⟩
        obtain ⟨hnodup, hsub, hfresh'⟩ := hfit
        obtain ⟨hnot, hcs⟩ := List.nodup_cons.mp hnodup
        refine ⟨hcs, fun y hy => hsub y (List.mem_cons_of_mem _ hy), fun y hy => ?_⟩
        rw [List.map_cons, List.mem_cons, not_or]
        refine ⟨?_, hfresh' y (List.mem_cons_of_mem _ hy)⟩
        rintro rfl
        exact hnot hy
      have hperform : M.perform (.command (counter.assign (.integer 0))) st
          = some (st.set counter.name (.integer 0)) := by
        refine (hM.assign _ _ _).trans ?_
        rw [Meaning.value, hM.integer_literal]
      refine Answer.after hb (quietly_counting hb hx rfl hperform)
        (same_of_counter hx (.integer 0)) ?_
      exact answer_jump hM hb (hnext.rounds htest hbody' hx hfresh 0 _)
        (hold_of_counter hfresh hhold) (hagree.set (hb.counter_mem hx) _)

/-- The next statement of a list is answered. -/
theorem answer_run (hM : M.Lawful) (hb : c.Books owned) {items : List Statement}
    {counters : List String} {f : Fragment}
    (h : Layout number base pending items counters f) (hplaced : Placed c.flow base f.closed)
    (hend : c.flow[base + f.closed.length]? = some ⟨f.pending ++ more, last⟩)
    (hrest : Meets number c.flow c.counters more last frames expected)
    (hfit : Fit c.counters counters expected) (hstart : c.flow[base]? = some ⟨pending ++ ws, tail⟩)
    (hignores : ∀ q ∈ partsOf items, M.Ignores owned q)
    (hhold : ∀ q ∈ expected, st q.1 = .integer q.2)
    (hrun : st c.control.running.name = .integer 0) (hagree : Store.AgreeOff owned st su) :
    Answer M p owned c number index stack firings su (.run items :: frames)
      ⟨st, turnFrom c index ws tail stack, firings⟩ st (M.next su (.run items :: frames)) := by
  cases h with
  | nil =>
      -- The code stands still while the thread leaves an empty list.
      rw [List.length_nil, Nat.add_zero, hstart] at hend
      obtain ⟨rfl, rfl⟩ : ws = more ∧ tail = last := by simpa using hend
      exact ⟨0, st, ws, tail, .refl _, .inr (weight_nil frames), ⟨expected, hrest, hhold⟩, hrun,
        hagree, fun _ _ _ => rfl⟩
  | @list _ _ items rest _ _ hlist =>
      exact ⟨0, st, ws, tail, .refl _, .inr (weight_list items rest frames),
        ⟨expected, .run hlist hplaced hend hrest hfit hstart, hhold⟩, hrun, hagree,
        fun _ _ _ => rfl⟩
  | @work _ _ s t rest _ _ hs hwork =>
      obtain ⟨ws', tail', hstart'⟩ := hwork.starts hplaced hend
      obtain ⟨rfl, rfl⟩ : ws = .placed t :: ws' ∧ tail = tail' := by
        rw [hstart] at hstart'
        simpa using hstart'
      rw [Meaning.next, nextOf_of_placed hs]
      have ht := hignores _ (List.mem_append_left _ (plain_mem_of_placed hs))
      exact answer_placed hb hs ht (.run hwork hplaced hend hrest hfit hstart') hhold hrun hagree
  | @wait _ _ s waiting rest _ g hs hg =>
      obtain ⟨hhead, hafter⟩ := Placed.cons hplaced
      obtain ⟨rfl, rfl⟩ : ws = [] ∧ tail = waiting := by
        rw [hstart] at hhead
        simpa using hhead
      have hnext := hrest.enter hg hafter (end_of_andThen rfl hend) hfit
      exact answer_wait hM hb hs (fun q hq => hignores q (List.mem_append_left _ hq)) hnext hhold
        hrun hagree
  | @when _ _ condition yes rest cs ds y g hy hg =>
      obtain ⟨hhead, hyes, hlast, hafter⟩ := hplaced.when
      obtain ⟨rfl, rfl⟩ : ws = [] ∧ tail = _ := by
        rw [hstart] at hhead
        simpa using hhead
      -- Behind the branch the rest of the list is met, so that the branch is met in front of it.
      have hnext := hrest.enter hg hafter
        (end_of_andThen (by simp only [Fragment.length_when]; omega) hend)
        (hfit.mono (List.sublist_append_right _ _))
      have hin := hnext.enter hy hyes hlast (hfit.mono (List.sublist_append_left _ _))
      have hcond : M.Ignores owned (.condition condition) :=
        hignores _ (by simp [partsOf, Statement.parts])
      exact answer_conditional hM hb hin hnext.nil hcond hhold hagree
  | @either _ _ condition yes no rest cs ds es y n g hne hy hn hg =>
      obtain ⟨hhead, hyes, hlast, hno, hlast', hafter⟩ := hplaced.either
      obtain ⟨rfl, rfl⟩ : ws = [] ∧ tail = _ := by
        rw [hstart] at hhead
        simpa using hhead
      have hnext := hrest.enter hg hafter
        (end_of_andThen (by simp only [Fragment.length_either]; omega) hend)
        (hfit.mono (List.sublist_append_right _ _))
      have hleft := hfit.mono (List.sublist_append_left (cs ++ ds) es)
      have hin := hnext.enter hy hyes hlast (hleft.mono (List.sublist_append_left _ _))
      have hin' := hnext.enter hn hno hlast' (hleft.mono (List.sublist_append_right _ _))
      have hcond : M.Ignores owned (.condition condition) :=
        hignores _ (by simp [partsOf, Statement.parts])
      exact answer_conditional hM hb hin hin' hcond hhold hagree
  | @loop _ _ s prepare condition next body rest own cs ds b g hs hbody hg =>
      obtain ⟨hhead, htest, hin, hlast, hafter⟩ := hplaced.loop
      obtain ⟨rfl, rfl⟩ : ws = prepare ∧ tail = _ := by
        rw [hstart] at hhead
        simpa using hhead
      have hnext := hrest.enter hg hafter
        (end_of_andThen (by simp only [Fragment.length_loop]; omega) hend)
        (hfit.mono (List.sublist_append_right _ _))
      exact answer_loop hM hb hs hbody htest hin hlast hnext
        (hfit.mono (List.sublist_append_left _ _))
        (fun q hq => hignores q (List.mem_append_left _ hq)) hhold hrun hagree

end Script

/-- **Every move of a thread is answered** by a sequence that stands at a place that meets its
frames. The induction is on the place: jumps and changes of counters come first, and then the place
does what the innermost frame asks for. -/
theorem answer (hM : M.Lawful) (hb : c.Books owned) {ws : List Work} {tail : Tail}
    {expected : Expected} (h : Meets number c.flow c.counters ws tail frames expected)
    (hignores : ∀ q ∈ frames.flatMap (·.parts), M.Ignores owned q)
    (hsteady : M.steady su frames = true) (hhold : ∀ q ∈ expected, st q.1 = .integer q.2)
    (hrun : st c.control.running.name = .integer 0) (hagree : Store.AgreeOff owned st su) :
    Answer M p owned c number index stack firings su frames
      ⟨st, turnFrom c index ws tail stack, firings⟩ st (M.next su frames) := by
  induction h generalizing st with
  | finish => exact answer_finish hM
  | jump hflow hmeets ih =>
      obtain ⟨st', hquiet, hrun', honly⟩ := tail_jump (p := p) index stack firings hM hb hflow
      have hhold' := honly.controls.hold hb hmeets hhold
      have hagree' := honly.controls.agree hb hagree
      exact (ih hignores hsteady hhold' hrun' hagree').after hb hquiet honly.same
  | run hlayout hplaced hend hrest hfit hstart _ =>
      have hitems := fun q hq => hignores q (List.mem_append_left _ hq)
      exact answer_run hM hb hlayout hplaced hend hrest hfit hstart hitems hhold hrun hagree
  | @test test entry exit condition body ws tail frames expected htest hbody hflow hmeets _ =>
      have hexit : MeetsAt number c.flow c.counters exit frames expected :=
        ⟨ws, tail, hflow, hmeets⟩
      have hcond : M.Ignores owned (.condition condition) :=
        hignores _ (by simp [Frame.parts])
      refine answer_branch hM hb (bool_running hb hcond hagree) ?_ hhold hagree
      cases M.bool condition su with
      | true =>
          have hback := hexit.test htest hbody
          obtain ⟨cs, b, hlayout, hplaced, hlast, hfit⟩ := hbody
          exact hback.jump.enter hlayout hplaced hlast hfit
      | false => exact hexit
  | @rounds test entry exit done times x count body ws tail frames expected htest hbody hx hfresh
      hflow hmeets _ =>
      have hexit : MeetsAt number c.flow c.counters exit frames expected :=
        ⟨ws, tail, hflow, hmeets⟩
      have hcount : M.Ignores owned (.count count) := hignores _ (by simp [Frame.parts])
      have hne : x ≠ c.control.running.name := by
        rintro rfl
        exact hb.counter_notMem hx (by simp [SequenceControl.names])
      -- The counter holds the rounds that are done, also while the re-entry flag is set, and the
      -- count, which the code reads again, says what it said at first.
      have hcond : M.bool (Expr.comparison .lt rfl (.ident x) count)
          (st.set c.control.running.name (.integer 1)) = decide (done < times) := by
        refine (hM.lt _ _ _).trans ?_
        have hdone : st.set c.control.running.name (.integer 1) x = .integer done := by
          rw [st.set_of_ne _ hne, hhold _ List.mem_cons_self]
        rw [hM.integer_ident _ _ _ hdone, hcount _ _ (hagree.set hb.running_mem _)]
        exact eq_of_beq hsteady
      rw [Meaning.next]
      by_cases hless : done < times
      · rw [if_pos hless]
        rw [decide_eq_true hless] at hcond
        have hback := (hexit.rounds htest hbody hx hfresh (done + 1) times).jump
        obtain ⟨cs, b, hlayout, hplaced, hlast, hfit⟩ := hbody done
        exact answer_branch hM hb hcond ((Meets.count hback).enter hlayout hplaced hlast hfit) hhold
          hagree
      · rw [if_neg hless]
        rw [decide_eq_false hless] at hcond
        exact answer_branch hM hb hcond hexit
          (fun q hq => hhold q (List.mem_cons_of_mem _ hq)) hagree
  | @count x done ws tail frames expected hmeets ih =>
      have hx : x ∈ c.counters := hmeets.expected_mem _ List.mem_cons_self
      have hfresh : x ∉ expected.map (·.1) := (List.nodup_cons.mp hmeets.expected_nodup).1
      have hperform : M.perform (.command (.increment x)) st
          = some (st.set x (.integer (done + 1 : Nat))) :=
        hM.increment x done st (hhold _ List.mem_cons_self)
      have hhold' := hold_of_counter (n := done + 1) hfresh
        fun q hq => hhold q (List.mem_cons_of_mem _ hq)
      have hrun' : st.set x (.integer (done + 1 : Nat)) c.control.running.name = .integer 0 := by
        rw [st.set_of_ne _, hrun]
        rintro rfl
        exact hb.counter_notMem hx (by simp [SequenceControl.names])
      exact (ih hignores hsteady hhold' hrun' (hagree.set (hb.counter_mem hx) _)).after hb
        (quietly_counting hb hx rfl hperform) (same_of_counter hx _)

end Code

end Stimulus
