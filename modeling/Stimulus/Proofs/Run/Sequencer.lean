import Stimulus.Proofs.Run.Place

/-!
# What the statements of the sequencer do

The machine for generated code, run on the statements that keep the books of one sequence: the
loop over its states and the tails of the states. None of these steps is logged outward.

## Main results

* `Code.loop_again`, `Code.loop_done`: the loop of a sequence goes on exactly if it was told to.
* `Code.tail_jump`, `Code.tail_branch`: these tails lead to the statements of another state.
* `Code.tail_delay`, `Code.tail_signal`: these tails end the turn.
-/

namespace Stimulus

open Machine

/-- The variables of a sequence are different, and they are owned. -/
structure Compiled.Books (owned : List String) (c : Compiled) : Prop where
  nodup : c.names.Nodup
  owned : ∀ x ∈ c.names, x ∈ owned

namespace Compiled.Books

variable {owned : List String} {c : Compiled} (h : c.Books owned)

include h

/-- No counter is a control variable. -/
theorem counter_notMem {x : String} (hx : x ∈ c.counters) : x ∉ c.control.names :=
  fun hc => List.disjoint_of_nodup_append h.nodup hc hx

/-- The time is owned. -/
theorem time_mem : c.control.time.name ∈ owned :=
  h.owned _ (by simp [names, SequenceControl.names])

/-- The state is owned. -/
theorem state_mem : c.control.state.name ∈ owned :=
  h.owned _ (by simp [names, SequenceControl.names])

/-- Whether the sequence runs on is owned. -/
theorem running_mem : c.control.running.name ∈ owned :=
  h.owned _ (by simp [names, SequenceControl.names])

/-- The number of the event is owned. -/
theorem event_mem : c.control.event.name ∈ owned :=
  h.owned _ (by simp [names, SequenceControl.names])

/-- The counters are owned. -/
theorem counter_mem {x : String} (hx : x ∈ c.counters) : x ∈ owned :=
  h.owned _ (List.mem_append_right _ hx)

end Compiled.Books

namespace Code

variable {R : Type} (M : Meaning R) (p : Code) (owned : List String)

/-- The machine for generated code, logging only what is more than keeping the books. -/
def outward : Machine (Config R) (Happening R) :=
  Machine.visible (Happening.isOutward owned) (step M p)

variable {M p owned} {st st' : Store R} {index : Nat} {s : Statement} {stack : List Item}
  {firings : List (Firing R)}

/-! ### Single statements -/

/-- A statement that governs others is taken apart. -/
theorem steps_expand {items : List Statement} (h : M.expand st s = some items) :
    Steps (outward M p owned) 1 ⟨st, .run index s :: stack, firings⟩ []
      ⟨st, items.map (.run index) ++ stack, firings⟩ := by
  refine .single ?_
  simp [outward, visible, step, h]

/-- A statement that assigns to no owned variable is more than keeping the books. -/
theorem isOutward_performed (h : ∀ x ∈ s.target?, x ∉ owned) :
    Happening.isOutward (R := R) owned (.performed index s) = true := by
  rw [Happening.isOutward, Option.all_eq_true]
  intro x hx
  simpa using h x hx

/-- A plain statement that is performed is logged if it does not keep the books. -/
theorem steps_perform (h : M.expand st s = none) (hp : M.perform s st = some st')
    (hout : ∀ x ∈ s.target?, x ∉ owned) :
    Steps (outward M p owned) 1 ⟨st, .run index s :: stack, firings⟩ [.performed index s]
      ⟨st', stack, firings⟩ := by
  refine .single ?_
  simp [outward, visible, step, h, hp, isOutward_performed hout]

/-- A plain statement that ends the simulation is logged, and nothing happens any more. -/
theorem steps_end (h : M.expand st s = none) (hp : M.perform s st = none)
    (hout : ∀ x ∈ s.target?, x ∉ owned) :
    Steps (outward M p owned) 1 ⟨st, .run index s :: stack, firings⟩ [.performed index s]
      ⟨st, [], []⟩ := by
  refine .single ?_
  simp [outward, visible, step, h, hp, isOutward_performed hout]

/-- A command that keeps the books is performed and not logged. -/
theorem steps_keep {c : Command} {x : String} (hx : c.target? = some x) (howned : x ∈ owned)
    (hp : M.perform (.command c) st = some st') :
    Steps (outward M p owned) 1 ⟨st, .run index (.command c) :: stack, firings⟩ []
      ⟨st', stack, firings⟩ := by
  refine .single ?_
  have hout : Happening.isOutward (R := R) owned (.performed index (.command c)) = false := by
    rw [Happening.isOutward, Statement.target?, hx]
    simpa using howned
  simp [outward, visible, step, Meaning.expand, hp, hout]

/-- An assignment to an owned variable. -/
theorem steps_assign (hM : M.Lawful) {k : Kind} (v : Variable k) (e : Expr k)
    (hv : v.name ∈ owned) :
    Steps (outward M p owned) 1 ⟨st, .run index (.command (v.assign e)) :: stack, firings⟩ []
      ⟨st.set v.name (M.value ⟨k, e⟩ st), stack, firings⟩ :=
  steps_keep rfl hv (hM.assign _ _ _)

/-- The machine gets from one state to another one and logs nothing outward. -/
def Silently (M : Meaning R) (p : Code) (owned : List String) (a b : Config R) : Prop :=
  ∃ n, Steps (outward M p owned) n a [] b

/-- The machine gets from one state to another one in at least one step, and logs nothing
outward. -/
def Quietly (M : Meaning R) (p : Code) (owned : List String) (a b : Config R) : Prop :=
  ∃ n, 0 < n ∧ Steps (outward M p owned) n a [] b

/-- No step is taken. -/
theorem Silently.refl (a : Config R) : Silently M p owned a a :=
  ⟨0, .refl a⟩

/-- At least one step is any number of steps. -/
theorem Quietly.silently {a b : Config R} (h : Quietly M p owned a b) :
    Silently M p owned a b := by
  obtain ⟨n, -, hsteps⟩ := h
  exact ⟨n, hsteps⟩

/-- A step and those after it. -/
theorem Quietly.of_step {a b c : Config R} (h : Steps (outward M p owned) 1 a [] b)
    (h' : Silently M p owned b c) : Quietly M p owned a c := by
  obtain ⟨n, hsteps⟩ := h'
  exact ⟨1 + n, by omega, h.trans hsteps⟩

/-- Silent steps one after the other. -/
theorem Silently.trans {a b c : Config R} (h : Silently M p owned a b)
    (h' : Silently M p owned b c) : Silently M p owned a c := by
  obtain ⟨n, hsteps⟩ := h
  obtain ⟨k, hsteps'⟩ := h'
  exact ⟨n + k, hsteps.trans hsteps'⟩

/-- Quiet steps one after the other. -/
theorem Quietly.trans {a b c : Config R} (h : Quietly M p owned a b)
    (h' : Silently M p owned b c) : Quietly M p owned a c := by
  obtain ⟨n, hn, hsteps⟩ := h
  obtain ⟨k, hsteps'⟩ := h'
  exact ⟨n + k, by omega, hsteps.trans hsteps'⟩

/-! ### The loop of a sequence -/

variable {c : Compiled}

/-- The case over a flow chooses the arm of the current state. -/
theorem chosen_arms (hM : M.Lawful) (control : SequenceControl) {flow : Sequence.Flow}
    {i : Nat} {s : Sequence.State} (hst : st control.state.name = .integer i)
    (hs : flow[i]? = some s) :
    M.chosen ⟨_, control.state.expr⟩ (flow.arms control) st = s.statements control := by
  have hfits (n : Nat) : M.fits ⟨_, .integer n⟩ ⟨_, control.state.expr⟩ st = decide (n = i) := by
    rw [hM.fits, hM.integer_literal, Variable.expr, hM.integer_ident _ _ _ hst]
    exact decide_eq_decide.mpr Int.ofNat_inj
  obtain ⟨hi, hget⟩ := List.getElem?_eq_some_iff.mp hs
  have hfind : (flow.arms control).find?
      (fun a => a.label.any fun label => M.fits label ⟨_, control.state.expr⟩ st)
      = some (.mk (some ⟨_, .integer i⟩) (s.statements control)) := by
    rw [List.find?_eq_some_iff_getElem]
    -- Arms are labelled by their positions, so that no earlier one fits.
    refine ⟨by simp [Arm.label, hfits], i, by simpa [Sequence.Flow.arms] using hi, ?_, ?_⟩
    · simp [Sequence.Flow.arms, hget]
    · intro j hj
      simp [Sequence.Flow.arms, Arm.label, hfits]
      omega
  rw [Meaning.chosen, hfind]
  rfl

/-- A sequence that has been told to run on does what its state says. It is not told any more
then. -/
theorem loop_again (hM : M.Lawful) (hb : c.Books owned)
    {i : Nat} {s : Sequence.State} (hrun : st c.control.running.name = .integer 1)
    (hst : st c.control.state.name = .integer i) (hs : c.flow[i]? = some s) :
    Quietly M p owned ⟨st, .run index (Sequence.loop c.control c.flow) :: stack, firings⟩
      ⟨st.set c.control.running.name (.integer 0),
        (s.statements c.control).map (.run index)
          ++ .run index (Sequence.loop c.control c.flow) :: stack, firings⟩ := by
  obtain ⟨-, -, -, hne, -, -⟩ := c.control.names_ne
  have hcond : M.bool c.control.running.expr st = true := by
    rw [Variable.expr, hM.bool_ident _ _ _ hrun]
    rfl
  have hstate : st.set c.control.running.name (.integer 0) c.control.state.name
      = .integer i := by
    rw [st.set_of_ne _ hne, hst]
  have hloop : M.expand st (Sequence.loop c.control c.flow)
      = some [.command (c.control.running.assign (.bool false)),
          .select ⟨_, c.control.state.expr⟩ (c.flow.arms c.control),
          Sequence.loop c.control c.flow] := by
    rw [Sequence.loop, Meaning.expand, hcond]
    rfl
  have hfalse : M.value ⟨_, .bool false⟩ st = .integer 0 := by
    rw [Meaning.value, hM.bool_literal]
    rfl
  have hselect : M.expand (st.set c.control.running.name (.integer 0))
      (.select ⟨_, c.control.state.expr⟩ (c.flow.arms c.control))
      = some (s.statements c.control) := by
    rw [Meaning.expand, chosen_arms hM c.control hstate hs]
  -- The loop goes round once more: the flag is cleared first, and the state is looked up then.
  refine .of_step (steps_expand hloop) (Quietly.silently ?_)
  refine .of_step (steps_assign hM _ _ hb.running_mem) (Quietly.silently ?_)
  rw [hfalse]
  exact .of_step (steps_expand hselect) (.refl _)

/-- A sequence that has not been told to run on ends its turn. -/
theorem loop_done (hM : M.Lawful) (hrun : st c.control.running.name = .integer 0) :
    Quietly M p owned ⟨st, .run index (Sequence.loop c.control c.flow) :: stack, firings⟩
      ⟨st, stack, firings⟩ := by
  have hcond : M.bool c.control.running.expr st = false := by
    rw [Variable.expr, hM.bool_ident _ _ _ hrun]
    rfl
  have hloop : M.expand st (Sequence.loop c.control c.flow) = some [] := by
    rw [Sequence.loop, Meaning.expand, hcond]
    rfl
  exact .of_step (steps_expand hloop) (.refl _)

/-! ### Tails -/

/-- What is left to do of the turn of a sequence that stands at a place of its flow. -/
def turnFrom (c : Compiled) (index : Nat) (ws : List Sequence.Work) (tail : Sequence.Tail)
    (stack : List Item) : List Item :=
  (ws.map (·.statement) ++ tail.statements c.control).map (.run index)
    ++ .run index (Sequence.loop c.control c.flow) :: stack

/-- Making a state the next one. -/
theorem steps_goto (hM : M.Lawful) (hb : c.Books owned) (i : Nat) :
    Steps (outward M p owned) 1 ⟨st, .run index (Sequence.goto c.control i) :: stack, firings⟩ []
      ⟨st.set c.control.state.name (.integer i), stack, firings⟩ := by
  have hvalue : M.value ⟨_, .integer i⟩ st = .integer i := by
    rw [Meaning.value, hM.integer_literal]
  rw [← hvalue]
  exact steps_assign hM c.control.state (.integer i) hb.state_mem

/-- Telling the sequence to run on. -/
theorem steps_runOn (hM : M.Lawful) (hb : c.Books owned) :
    Steps (outward M p owned) 1 ⟨st, .run index (Sequence.runOn c.control) :: stack, firings⟩ []
      ⟨st.set c.control.running.name (.integer 1), stack, firings⟩ := by
  have hvalue : M.value ⟨_, .bool true⟩ st = .integer 1 := by
    rw [Meaning.value, hM.bool_literal]
    rfl
  rw [← hvalue]
  exact steps_assign hM c.control.running (.bool true) hb.running_mem

/-- Waiting for the event with a given number. -/
theorem steps_awaitEvent (hM : M.Lawful) (hb : c.Books owned) (n : Nat) :
    Steps (outward M p owned) 1
      ⟨st, .run index (Sequence.awaitEvent c.control n) :: stack, firings⟩ []
      ⟨st.set c.control.event.name (.integer n), stack, firings⟩ := by
  have hvalue : M.value ⟨_, .integer n⟩ st = .integer n := by
    rw [Meaning.value, hM.integer_literal]
  rw [← hvalue]
  exact steps_assign hM c.control.event (.integer n) hb.event_mem

variable (index stack firings)

/-- The store has changed in some variables only. -/
def OnlyIn (names : List String) (st st' : Store R) : Prop :=
  ∀ x, x ∉ names → st' x = st x

/-- A sequence that has been told to run on with another state does what that state says. -/
theorem resume_at (hM : M.Lawful) (hb : c.Books owned) {i : Nat} {ws : List Sequence.Work}
    {tail : Sequence.Tail} (hrun : st c.control.running.name = .integer 1)
    (hs : c.flow[i]? = some ⟨ws, tail⟩) :
    ∃ st', Quietly M p owned
        ⟨st, .run index (Sequence.goto c.control i)
          :: .run index (Sequence.loop c.control c.flow) :: stack, firings⟩
        ⟨st', turnFrom c index ws tail stack, firings⟩ ∧
      st' c.control.running.name = .integer 0 ∧
      OnlyIn [c.control.state.name, c.control.running.name] st st' := by
  obtain ⟨-, -, -, hne, -, -⟩ := c.control.names_ne
  refine ⟨(st.set c.control.state.name (.integer i)).set c.control.running.name (.integer 0),
    .of_step (steps_goto hM hb i) (Quietly.silently ?_), Store.set_self .., ?_⟩
  · refine loop_again hM hb ?_ (Store.set_self ..) hs
    rw [st.set_of_ne _ hne.symm, hrun]
  · intro x hx
    simp only [List.mem_cons, List.not_mem_nil, or_false, not_or] at hx
    rw [Store.set_of_ne _ _ hx.2, Store.set_of_ne _ _ hx.1]

/-- **A jump** leads to the statements of its state. -/
theorem tail_jump (hM : M.Lawful) (hb : c.Books owned) {i : Nat} {ws : List Sequence.Work}
    {tail : Sequence.Tail} (hs : c.flow[i]? = some ⟨ws, tail⟩) :
    ∃ st', Quietly M p owned ⟨st, turnFrom c index [] (.jump i) stack, firings⟩
        ⟨st', turnFrom c index ws tail stack, firings⟩ ∧
      st' c.control.running.name = .integer 0 ∧
      OnlyIn [c.control.state.name, c.control.running.name] st st' := by
  obtain ⟨st', hquiet, hrun, honly⟩ := resume_at index stack firings hM hb
    (Store.set_self st c.control.running.name (.integer 1)) hs
  refine ⟨st', .of_step (steps_runOn hM hb) hquiet.silently, hrun, fun x hx => ?_⟩
  rw [honly x hx, Store.set_of_ne]
  simp only [List.mem_cons, List.not_mem_nil, or_false, not_or] at hx
  exact hx.2

/-- **A branch** leads to the statements of the state that its condition chooses. -/
theorem tail_branch (hM : M.Lawful) (hb : c.Books owned) {condition : Expr .bool} {yes no : Nat}
    {holds : Bool} (hcond : M.bool condition (st.set c.control.running.name (.integer 1)) = holds)
    {ws : List Sequence.Work} {tail : Sequence.Tail}
    (hs : c.flow[if holds then yes else no]? = some ⟨ws, tail⟩) :
    ∃ st', Quietly M p owned ⟨st, turnFrom c index [] (.branch condition yes no) stack, firings⟩
        ⟨st', turnFrom c index ws tail stack, firings⟩ ∧
      st' c.control.running.name = .integer 0 ∧
      OnlyIn [c.control.state.name, c.control.running.name] st st' := by
  obtain ⟨st', hquiet, hrun, honly⟩ := resume_at index stack firings hM hb
    (Store.set_self st c.control.running.name (.integer 1)) hs
  have hbranch : M.expand (st.set c.control.running.name (.integer 1))
      (.branch condition [Sequence.goto c.control yes] [Sequence.goto c.control no])
      = some [Sequence.goto c.control (if holds then yes else no)] := by
    rw [Meaning.expand, hcond]
    cases holds <;> rfl
  refine ⟨st', .of_step (steps_runOn hM hb) (Quietly.silently ?_), hrun, fun x hx => ?_⟩
  · exact .of_step (steps_expand hbranch) hquiet.silently
  · rw [honly x hx, Store.set_of_ne]
    simp only [List.mem_cons, List.not_mem_nil, or_false, not_or] at hx
    exact hx.2

/-- **A wait for the timer** ends the turn. Its time is that of a store in which only the books have
changed. -/
theorem tail_delay (hM : M.Lawful) (hb : c.Books owned)
    (hrun : st c.control.running.name = .integer 0) (seconds : Expr .real) (next : Nat) :
    ∃ st', Quietly M p owned ⟨st, turnFrom c index [] (.delay seconds next) stack, firings⟩
        ⟨st', stack, firings⟩ ∧
      st' c.control.event.name = .integer 0 ∧ st' c.control.state.name = .integer next ∧
      (∃ su, OnlyIn c.control.names st su ∧
        st' c.control.time.name = .real (M.real (Expr.now.add seconds) su)) ∧
      st' c.control.running.name = .integer 0 ∧ OnlyIn c.control.names st st' := by
  obtain ⟨hts, htr, hte, hsr, hse, hre⟩ := c.control.names_ne
  -- The delay is read when the event and the state have been set already.
  let su := (st.set c.control.event.name (.integer 0)).set c.control.state.name (.integer next)
  have hother {x : String} (hs : x ≠ c.control.state.name) (he : x ≠ c.control.event.name) :
      su x = st x :=
    (Store.set_of_ne _ _ hs).trans (Store.set_of_ne _ _ he)
  have hevent : su c.control.event.name = .integer 0 :=
    (Store.set_of_ne _ _ hse.symm).trans (Store.set_self ..)
  let st' := su.set c.control.time.name (M.value ⟨_, Expr.now.add seconds⟩ su)
  have hrun' : st' c.control.running.name = .integer 0 :=
    (Store.set_of_ne _ _ htr.symm).trans ((hother hsr.symm hre).trans hrun)
  have hchain : Quietly M p owned ⟨st, turnFrom c index [] (.delay seconds next) stack, firings⟩
      ⟨st', stack, firings⟩ := by
    refine .of_step (steps_awaitEvent hM hb 0) (Quietly.silently ?_)
    refine .of_step (steps_goto hM hb next) (Quietly.silently ?_)
    refine .of_step (steps_assign hM c.control.time _ hb.time_mem) (Quietly.silently ?_)
    exact loop_done hM hrun'
  refine ⟨st', hchain, ?_, ?_, ⟨su, fun x hx => ?_, Store.set_self ..⟩, hrun', fun x hx => ?_⟩
  · exact (Store.set_of_ne _ _ hte.symm).trans hevent
  · exact (Store.set_of_ne _ _ hts.symm).trans (Store.set_self ..)
  · simp only [SequenceControl.names, List.mem_cons, List.not_mem_nil, or_false, not_or] at hx
    obtain ⟨-, hs, -, he⟩ := hx
    exact hother hs he
  · simp only [SequenceControl.names, List.mem_cons, List.not_mem_nil, or_false, not_or] at hx
    obtain ⟨ht, hs, -, he⟩ := hx
    exact (Store.set_of_ne _ _ ht).trans (hother hs he)

/-- **A wait for an event** ends the turn. -/
theorem tail_signal (hM : M.Lawful) (hb : c.Books owned)
    (hrun : st c.control.running.name = .integer 0) (number next : Nat) :
    ∃ st', Quietly M p owned ⟨st, turnFrom c index [] (.signal number next) stack, firings⟩
        ⟨st', stack, firings⟩ ∧
      st' c.control.event.name = .integer number ∧
      st' c.control.state.name = .integer next ∧
      st' c.control.time.name = st c.control.time.name ∧
      st' c.control.running.name = .integer 0 ∧ OnlyIn c.control.names st st' := by
  obtain ⟨hts, -, hte, hsr, hse, hre⟩ := c.control.names_ne
  let st' := (st.set c.control.event.name (.integer number)).set c.control.state.name
    (.integer next)
  have hother {x : String} (hs : x ≠ c.control.state.name) (he : x ≠ c.control.event.name) :
      st' x = st x :=
    (Store.set_of_ne _ _ hs).trans (Store.set_of_ne _ _ he)
  have hrun' : st' c.control.running.name = .integer 0 :=
    (hother hsr.symm hre).trans hrun
  have hchain : Quietly M p owned
      ⟨st, turnFrom c index [] (.signal number next) stack, firings⟩ ⟨st', stack, firings⟩ := by
    refine .of_step (steps_awaitEvent hM hb number) (Quietly.silently ?_)
    refine .of_step (steps_goto hM hb next) (Quietly.silently ?_)
    exact loop_done hM hrun'
  refine ⟨st', hchain, ?_, Store.set_self .., hother hts hte, hrun', fun x hx => ?_⟩
  · exact (Store.set_of_ne _ _ hse.symm).trans (Store.set_self ..)
  · simp only [SequenceControl.names, List.mem_cons, List.not_mem_nil, or_false, not_or] at hx
    obtain ⟨-, hs, -, he⟩ := hx
    exact hother hs he

end Code

end Stimulus
