import Stimulus.Proofs.Run.Turn
import Stimulus.Proofs.Run.Waking

/-!
# Code simulates scripts

The code of a module runs its sequences as the machine for scripts runs the scripts. The two are
related while sequences have their turns: the sequences that had their turn are at rest, those that
are still to have it have been told to run on if they were woken, and the one that has its turn
stands where its thread does.

## Main definitions

* `Compiled.Parked`, `Compiled.Going`: a sequence and its thread, between turns and in a turn.
* `Related`: the states of the two machines.
* `Sound`: what the code relies on in a state of the scripts.

## Main results

* `Module.Hosts.simulates`: code simulates scripts.
-/

namespace Stimulus

open Machine Sequence

/-! ### Sequences and their threads -/

namespace Compiled

variable {R : Type} (c : Compiled) (m : Module)

/-- What a sequence and its thread agree on at all times: for what they wait and when their timer is
due. The thread runs parts of the script. -/
structure Kept (st : Store R) (t : Thread R) : Prop where
  waits : c.Waits m st t.awaits
  due : st c.control.time.name = t.due
  parts : ∀ q ∈ t.frames.flatMap (·.parts), q ∈ partsOf c.script

/-- Between its turns a sequence has a state that meets the frames of its thread. It may have been
told to run on. -/
structure Parked (told : Bool) (st : Store R) (t : Thread R) : Prop extends c.Kept m st t where
  at_state : ∃ (i : Nat) (ws : List Work) (tail : Tail),
    st c.control.state.name = .integer i ∧ c.flow[i]? = some ⟨ws, tail⟩ ∧
      c.At (numberIn m.prologue) st ws tail t.frames
  running : st c.control.running.name = .integer (if told then 1 else 0)

/-- In its turn a sequence stands at a place that meets the frames of its thread. -/
structure Going (st : Store R) (t : Thread R) (ws : List Work) (tail : Tail) : Prop
    extends c.Kept m st t where
  at_place : c.At (numberIn m.prologue) st ws tail t.frames
  running : st c.control.running.name = .integer 0

variable {c m} {st st' : Store R} {t : Thread R} {told : Bool}

/-- A sequence under way leaves the variables of others alone. -/
theorem Underway.others {number : Event → Nat} {owned : List String} {su : Store R}
    {ws : List Work} {tail : Tail} {frames : List Frame}
    (h : c.Underway number owned st st' su ws tail frames) :
    ∀ x ∈ owned, x ∉ c.names → st' x = st x :=
  fun x hx hne => h.same x hx fun hv => hne (Code.volatile_subset x hv)

/-- The control variables are variables of the sequence. -/
theorem mem_names {x : String} (hx : x ∈ c.control.names) : x ∈ c.names :=
  List.mem_append_left _ hx

/-- Waiting depends on the number of the event only. -/
theorem Waits.congr {awaits : Option String} (h : c.Waits m st awaits)
    (hevent : st' c.control.event.name = st c.control.event.name) : c.Waits m st' awaits := by
  cases awaits with
  | none => exact hevent.trans h
  | some text =>
      obtain ⟨event, hmem, htext, hnum⟩ := h
      exact ⟨event, hmem, htext, hevent.trans hnum⟩

/-- A place is met as long as the counters keep their values. -/
theorem At.congr {number : Event → Nat} {ws : List Work} {tail : Tail} {frames : List Frame}
    (h : c.At number st ws tail frames) (hsame : ∀ x ∈ c.counters, st' x = st x) :
    c.At number st' ws tail frames := by
  obtain ⟨expected, hmeets, hhold⟩ := h
  refine ⟨expected, hmeets, fun q hq => ?_⟩
  rw [hsame _ (hmeets.expected_mem q hq), hhold q hq]

/-- What a sequence and its thread agree on depends on two variables. -/
theorem Kept.congr (h : c.Kept m st t)
    (hevent : st' c.control.event.name = st c.control.event.name)
    (htime : st' c.control.time.name = st c.control.time.name) : c.Kept m st' t :=
  ⟨h.waits.congr hevent, htime.trans h.due, h.parts⟩

/-- A parked sequence may be told to run on, or not to. -/
theorem Parked.tell {owned : List String} (h : c.Parked m told st t) (hb : c.Books owned)
    (hsame : ∀ x ∈ c.names, x ≠ c.control.running.name → st' x = st x) {told' : Bool}
    (hrun : st' c.control.running.name = .integer (if told' then 1 else 0)) :
    c.Parked m told' st' t := by
  obtain ⟨hkept, ⟨i, ws, tail, hstate, hflow, hat⟩, -⟩ := h
  obtain ⟨-, htr, -, hsr, -, hre⟩ := c.control.names_ne
  refine ⟨hkept.congr ?_ ?_, ⟨i, ws, tail, ?_, hflow, hat.congr fun x hx => ?_⟩, hrun⟩
  · exact hsame _ (mem_names (by simp [SequenceControl.names])) hre.symm
  · exact hsame _ (mem_names (by simp [SequenceControl.names])) htr
  · rw [hsame _ (mem_names (by simp [SequenceControl.names])) hsr, hstate]
  · refine hsame x (List.mem_append_right _ hx) ?_
    rintro rfl
    exact hb.counter_notMem hx (by simp [SequenceControl.names])

/-- A sequence stays parked when others change their variables. -/
theorem Parked.congr {owned : List String} (h : c.Parked m told st t) (hb : c.Books owned)
    (hsame : ∀ x ∈ c.names, st' x = st x) : c.Parked m told st' t := by
  refine h.tell hb (fun x hx _ => hsame x hx) ?_
  rw [hsame _ (mem_names (by simp [SequenceControl.names])), h.running]

end Compiled

/-! ### Moves stay in the script -/

/-- The frames of a thread after a move. -/
def Move.frames {R : Type} : Move R → List Frame
  | .pass frames => frames
  | .perform _ frames => frames
  | .delay _ frames => frames
  | .await _ frames => frames

/-- A move at a statement leads to frames with parts of what was there before. -/
theorem Meaning.parts_nextOf {R : Type} (M : Meaning R) (st : Store R) (s : Statement)
    (left : List Statement) (around : List Frame) :
    ∀ q ∈ (M.nextOf st s left around).frames.flatMap (·.parts),
      q ∈ (Frame.run (s :: left) :: around).flatMap (·.parts) := by
  intro q
  unfold Meaning.nextOf
  rw [List.flatMap_cons, Frame.parts, partsOf]
  split <;> simp only [Move.frames, List.flatMap_cons, Frame.parts, Statement.parts, partsOf_append,
    partsOf, List.mem_append, List.mem_cons, List.append_nil, List.not_mem_nil]
  all_goals try tauto
  split <;> tauto

/-- A move leads to frames with parts of what was there before. -/
theorem Meaning.parts_next {R : Type} (M : Meaning R) (st : Store R) (frames : List Frame) :
    ∀ q ∈ (M.next st frames).frames.flatMap (·.parts), q ∈ frames.flatMap (·.parts) := by
  fun_cases M.next st frames with
  | case1 => simp [Move.frames]
  | case2 fs =>
      intro q hq
      rw [List.flatMap_cons]
      exact List.mem_append_right _ hq
  | case3 s left fs => exact M.parts_nextOf st s left fs
  | case4 condition body fs =>
      intro q
      simp only [Move.frames]
      split <;> simp only [List.flatMap_cons, Frame.parts, List.mem_append, List.mem_cons] <;> tauto
  | case5 done count body fs =>
      intro q
      simp only [Move.frames]
      split <;> simp only [List.flatMap_cons, Frame.parts, List.mem_append, List.mem_cons] <;> tauto

/-! ### The relation -/

/-- What is left to do of the turns of some sequences. -/
def turnsOf (cs : List Compiled) : List Code.Item :=
  cs.flatMap fun c => [.run c.control.index c.runner, .rest c.control]

/-- The turns that some threads are still to have. -/
def threadTurns (cause : Cause) (cs : List Compiled) : List Script.Item :=
  cs.map fun c => .turn c.control.index cause

/-- All that is run when something happens: what responds to it, and then all turns. -/
theorem Module.reaction_eq (m : Module) (cs : List Compiled) (cause : Cause) :
    (m.code cs).reaction cause = ((m.code cs).respond cause).map (.run 0) ++ turnsOf cs := by
  rw [Code.reaction]
  simp [code, turnsOf, List.flatMap_map]

section Related

variable {R : Type}

/-- Some sequences have had their turns after something has happened, and others are still to have
them. These have been told to run on if they were woken. -/
structure Idle (m : Module) (cause : Cause) (before after : List Compiled) (st : Store R)
    (threads : Nat → Thread R) : Prop where
  before : ∀ d ∈ before, d.Parked m false st (threads d.control.index)
  after : ∀ d ∈ after, d.Parked m
    (cause.wakes d.control.index (threads d.control.index).awaits) st (threads d.control.index)

/-- The states of the two machines that belong together: between the turns of two sequences, before
a sequence comes to rest, in the turn of a sequence, and after the end of the simulation. -/
inductive Related (m : Module) (cs : List Compiled) : Script.Config R → Code.Config R → Prop
  | turns {before after : List Compiled} {cause : Cause} {st su : Store R}
      {threads : Nat → Thread R} {firings : List (Firing R)} :
      cs = before ++ after → Store.AgreeOff (ownedBy cs) st su →
      Idle m cause before after st threads →
      Related m cs ⟨su, threads, threadTurns cause after, firings⟩ ⟨st, turnsOf after, firings⟩
  | rest {before after : List Compiled} {c : Compiled} {cause : Cause} {st su : Store R}
      {threads : Nat → Thread R} {firings : List (Firing R)} :
      cs = before ++ c :: after → Store.AgreeOff (ownedBy cs) st su →
      Idle m cause before after st threads →
      c.Parked m false st (threads c.control.index) →
      Related m cs ⟨su, threads, .rest c.control.index :: threadTurns cause after, firings⟩
        ⟨st, .rest c.control :: turnsOf after, firings⟩
  | go {before after : List Compiled} {c : Compiled} {cause : Cause} {st su : Store R}
      {threads : Nat → Thread R} {firings : List (Firing R)} {ws : List Work} {tail : Tail} :
      cs = before ++ c :: after → Store.AgreeOff (ownedBy cs) st su →
      Idle m cause before after st threads →
      c.Going m st (threads c.control.index) ws tail →
      Related m cs
        ⟨su, threads, .go c.control.index :: .rest c.control.index :: threadTurns cause after,
          firings⟩
        ⟨st, Code.turnFrom c c.control.index ws tail (.rest c.control :: turnsOf after), firings⟩
  | ended {st su : Store R} {threads : Nat → Thread R} :
      Related m cs ⟨su, threads, [], []⟩ ⟨st, [], []⟩

/-- For how long a thread under way can do no more than entering and leaving lists. -/
def Script.Config.rank (a : Script.Config R) : Nat :=
  match a.agenda with
  | .go index :: _ => weight (a.threads index).frames
  | _ => 0

/-- A thread that has changed. -/
@[simp] theorem Script.update_self (threads : Nat → Thread R) (index : Nat) (t : Thread R) :
    Script.update threads index t index = t :=
  if_pos rfl

/-- The other threads have not changed. -/
theorem Script.update_of_ne (threads : Nat → Thread R) {index i : Nat} (t : Thread R)
    (h : i ≠ index) : Script.update threads index t i = threads i :=
  if_neg h

/-- Nothing changes if a thread stays as it is. -/
theorem Script.update_eq_self (threads : Nat → Thread R) (index : Nat) :
    Script.update threads index (threads index) = threads := by
  funext i
  by_cases h : i = index
  · rw [h, update_self]
  · rw [update_of_ne _ _ h]

variable {m : Module} {cs : List Compiled}

namespace Idle

variable {cause : Cause} {before after : List Compiled} {st st' : Store R}
  {threads : Nat → Thread R}

/-- Sequences stay idle while another one has its turn. -/
theorem congr {owned : List String} (h : Idle m cause before after st threads)
    (hb : ∀ d ∈ before ++ after, d.Books owned) {threads' : Nat → Thread R}
    (hthreads : ∀ d ∈ before ++ after, threads' d.control.index = threads d.control.index)
    (hsame : ∀ d ∈ before ++ after, ∀ x ∈ d.names, st' x = st x) :
    Idle m cause before after st' threads' := by
  constructor
  · intro d hd
    have hmem := List.mem_append_left after hd
    rw [hthreads d hmem]
    exact (h.before d hd).congr (hb d hmem) (hsame d hmem)
  · intro d hd
    have hmem := List.mem_append_right before hd
    rw [hthreads d hmem]
    exact (h.after d hd).congr (hb d hmem) (hsame d hmem)

/-- A sequence is idle after its turn. -/
theorem snoc {c : Compiled} (h : Idle m cause before after st threads)
    (hc : c.Parked m false st (threads c.control.index)) :
    Idle m cause (before ++ [c]) after st threads := by
  refine ⟨fun d hd => ?_, h.after⟩
  rcases List.mem_append.mp hd with hd | hd
  · exact h.before d hd
  · obtain rfl := List.mem_singleton.mp hd
    exact hc

end Idle

namespace Module.Hosts

variable (h : m.Hosts cs) {before after : List Compiled} {c : Compiled}
  (hcs : cs = before ++ c :: after)

include h hcs

/-- The other sequences have other numbers. -/
theorem index_ne {d : Compiled} (hd : d ∈ before ++ after) :
    d.control.index ≠ c.control.index := by
  have hnodup := h.nodup_indices
  rw [hcs, List.map_append, List.map_cons, List.nodup_middle] at hnodup
  obtain ⟨hnot, -⟩ := List.nodup_cons.mp hnodup
  intro heq
  rw [← List.map_append, ← heq] at hnot
  exact hnot (List.mem_map_of_mem hd)

/-- The other sequences stay idle while a sequence changes its own variables and its own
thread. -/
theorem idle_of_same {cause : Cause} {st st' : Store R} {threads : Nat → Thread R} {t : Thread R}
    (hidle : Idle m cause before after st threads)
    (hsame : ∀ x ∈ ownedBy cs, x ∉ c.names → st' x = st x) :
    Idle m cause before after st' (Script.update threads c.control.index t) := by
  have hmem (d : Compiled) (hd : d ∈ before ++ after) : d ∈ cs := by
    rw [hcs]
    simp only [List.mem_append, List.mem_cons] at hd ⊢
    tauto
  refine hidle.congr (fun d hd => h.books (hmem d hd)) (fun d hd => ?_) fun d hd x hx => ?_
  · exact Script.update_of_ne _ _ (h.index_ne hcs hd)
  · refine hsame x (List.mem_flatMap.mpr ⟨d, hmem d hd, hx⟩) ?_
    exact h.foreign (hmem d hd) (by simp [hcs]) (h.index_ne hcs hd) hx

/-- What a sequence and its thread go on to agree on while the sequence has its turn. -/
theorem kept_of_underway {st st' su : Store R} {t : Thread R} (hkept : c.Kept m st t)
    {ws : List Work} {tail : Tail} {frames : List Frame}
    (hparts : ∀ q ∈ frames.flatMap (·.parts), q ∈ partsOf c.script)
    (hunder : c.Underway (numberIn m.prologue) (ownedBy cs) st st' su ws tail frames) :
    c.Going m st' { t with frames } ws tail := by
  obtain ⟨hwaits, hdue, -⟩ := hkept
  obtain ⟨hat, hrun, -, hsame⟩ := hunder
  have hb := h.books (c := c) (by simp [hcs])
  refine ⟨⟨hwaits.congr ?_, ?_, hparts⟩, hat, hrun⟩
  · exact hsame _ hb.event_mem (Code.event_notMem_volatile hb)
  · rw [hsame _ hb.time_mem (Code.time_notMem_volatile hb), hdue]

/-- **A move that is answered** takes related states to related states. -/
theorem related_of_answer {M : Meaning R} {st su : Store R} {threads : Nat → Thread R}
    {cause : Cause} (hidle : Idle m cause before after st threads)
    (hkept : c.Kept m st (threads c.control.index)) {a : Code.Config R}
    {firings : List (Firing R)} {move : Move R}
    (hparts : ∀ q ∈ move.frames.flatMap (·.parts), q ∈ partsOf c.script)
    (hanswer : Code.Answer M (m.code cs) (ownedBy cs) c (numberIn m.prologue) c.control.index
      (.rest c.control :: turnsOf after) firings su (threads c.control.index).frames a st move) :
    let rest := .rest c.control.index :: threadTurns cause after
    let before : Script.Config R := ⟨su, threads, .go c.control.index :: rest, firings⟩
    let next := before.move M c.control.index rest move
    ∃ n b, Steps (Code.outward M (m.code cs) (ownedBy cs)) n a next.1 b ∧
      Related m cs next.2 b ∧ (0 < n ∨ next.2.rank < before.rank) := by
  cases move with
  | pass frames =>
      obtain ⟨n, st', ws, tail, hsteps, hprogress, hunder⟩ := hanswer
      have hothers := hunder.others
      have hgoing := h.kept_of_underway hcs hkept hparts hunder
      refine ⟨n, _, hsteps, .go hcs hunder.agree (h.idle_of_same hcs hidle hothers) ?_, ?_⟩
      · rw [Script.update_self]
        exact hgoing
      · simpa [Script.Config.rank, Script.Config.move] using hprogress
  | perform s frames =>
      rcases hanswer with ⟨hp, n, st', hn, hsteps⟩ |
        ⟨su', hp, n, st', ws, tail, hn, hsteps, hunder⟩
      · refine ⟨n, _, hsteps, ?_, .inl hn⟩
        simp only [Script.Config.move, hp]
        exact .ended
      · have hothers := hunder.others
        have hgoing := h.kept_of_underway hcs hkept hparts hunder
        refine ⟨n, _, hsteps, ?_, .inl hn⟩
        simp only [Script.Config.move, hp]
        refine .go hcs hunder.agree (h.idle_of_same hcs hidle hothers) ?_
        rw [Script.update_self]
        exact hgoing
  | delay due frames =>
      obtain ⟨st', ⟨n, hn, hsteps⟩, hstopped, hevent, htime⟩ := hanswer
      refine ⟨n, _, hsteps, .rest hcs hstopped.agree
        (h.idle_of_same hcs hidle hstopped.same) ?_, .inl hn⟩
      rw [Script.update_self]
      exact ⟨⟨hevent, htime, hparts⟩, hstopped.at_state, hstopped.running⟩
  | await text frames =>
      obtain ⟨st', ⟨n, hn, hsteps⟩, hstopped, ⟨event, hmem, htext, hevent⟩, htime⟩ := hanswer
      refine ⟨n, _, hsteps, .rest hcs hstopped.agree
        (h.idle_of_same hcs hidle hstopped.same) ?_, .inl hn⟩
      rw [Script.update_self]
      refine ⟨⟨⟨event, ?_, htext, hevent⟩, htime.trans hkept.due, hparts⟩, hstopped.at_state,
        hstopped.running⟩
      exact List.mem_filterMap.mpr ⟨_, hkept.parts _ hmem, rfl⟩

/-- **A sequence that is woken** runs on with its state. -/
theorem simulates_wake {M : Meaning R} (hM : M.Lawful) {st su : Store R}
    (hguard : M.bool c.guard st = true) (hagree : Store.AgreeOff (ownedBy cs) st su)
    {threads : Nat → Thread R} {cause : Cause} (hidle : Idle m cause before after st threads)
    (hparked : c.Parked m true st (threads c.control.index)) (firings : List (Firing R)) :
    ∃ n b, Steps (Code.outward M (m.code cs) (ownedBy cs)) n
        ⟨st, turnsOf (c :: after), firings⟩ [] b ∧
      Related m cs ⟨su, threads,
        .go c.control.index :: .rest c.control.index :: threadTurns cause after, firings⟩ b ∧
      0 < n := by
  have hb := h.books (c := c) (by simp [hcs])
  obtain ⟨hkept, ⟨i, ws, tail, hstate, hflow, hat⟩, hrun⟩ := hparked
  have hexpand : M.expand st c.runner = some [Sequence.loop c.control c.flow] := by
    rw [Compiled.runner, Sequence.runner, Meaning.expand, hguard, if_pos rfl]
  obtain ⟨n, hn, hsteps⟩ := Code.Quietly.of_step (p := m.code cs)
    (Code.steps_expand hexpand) (Code.loop_again hM hb hrun hstate hflow).silently
  have hother {x : String} (hx : x ≠ c.control.running.name) :
      st.set c.control.running.name (.integer 0) x = st x :=
    st.set_of_ne _ hx
  obtain ⟨-, htr, -, -, -, hre⟩ := c.control.names_ne
  have hidle' := h.idle_of_same hcs (t := threads c.control.index) hidle fun x _ hx =>
    hother fun hxr => hx (by simp [hxr, Compiled.names, SequenceControl.names])
  rw [Script.update_eq_self] at hidle'
  refine ⟨n, _, hsteps, .go hcs (hagree.set hb.running_mem _) hidle' ?_, hn⟩
  refine ⟨hkept.congr (hother hre.symm) (hother htr), hat.congr fun x hx => hother ?_,
    Store.set_self ..⟩
  rintro rfl
  exact hb.counter_notMem hx (by simp [SequenceControl.names])

end Module.Hosts

/-! ### The simulation -/

/-- A change of the surroundings neither reads nor writes the owned variables. -/
def Firing.Apart (owned : List String) (f : Firing R) : Prop :=
  Meaning.Apart owned fun st => some (f.change st)

/-- A firing before which the surroundings have changed nothing is apart. -/
theorem Firing.apart_of_id {owned : List String} {f : Firing R} (h : f.change = id) :
    f.Apart owned := by
  refine ⟨fun _ _ hagree => ?_, ?_⟩
  · rw [h]
    exact .some hagree
  · rintro st _ ⟨⟩ x -
    rw [h]
    rfl

/-- **A sequence that is not woken** ends its turn at once. -/
theorem simulates_sleep {M : Meaning R} (hM : M.Lawful) {before after : List Compiled}
    {c : Compiled} (hcs : cs = before ++ c :: after) {st su : Store R}
    (hagree : Store.AgreeOff (ownedBy cs) st su) {threads : Nat → Thread R} {cause : Cause} (hidle : Idle m cause before after st threads)
    (hparked : c.Parked m false st (threads c.control.index)) (firings : List (Firing R)) :
    ∃ n b, Steps (Code.outward M (m.code cs) (ownedBy cs)) n
        ⟨st, turnsOf (c :: after), firings⟩ [] b ∧
      Related m cs ⟨su, threads, .rest c.control.index :: threadTurns cause after, firings⟩ b ∧
      0 < n := by
  have hexpand : M.expand st c.runner
      = some (if M.bool c.guard st then [Sequence.loop c.control c.flow] else []) := by
    rw [Compiled.runner, Sequence.runner, Meaning.expand]
  -- Without the guard the loop is not even looked at.
  cases hguard : M.bool c.guard st with
  | true =>
      rw [hguard, if_pos rfl] at hexpand
      obtain ⟨n, hn, hsteps⟩ := Code.Quietly.of_step (p := m.code cs)
        (Code.steps_expand hexpand) (Code.loop_done hM hparked.running).silently
      exact ⟨n, _, hsteps, .rest hcs hagree hidle hparked, hn⟩
  | false =>
      rw [hguard] at hexpand
      exact ⟨1, _, Code.steps_expand hexpand, .rest hcs hagree hidle hparked, Nat.one_pos⟩

/-- **What happens** takes related states to related states. -/
theorem Module.Hosts.simulates_firing {M : Meaning R} (h : m.Hosts cs) (ho : Orderly m.prologue)
    (hM : M.Lawful) {st su : Store R} (hagree : Store.AgreeOff (ownedBy cs) st su)
    {threads : Nat → Thread R} (hparked : ∀ c ∈ cs, c.Parked m false st (threads c.control.index))
    {f : Firing R} (hf : f.Apart (ownedBy cs)) (firings : List (Firing R)) :
    ∃ n b, Steps (Code.outward M (m.code cs) (ownedBy cs)) n ⟨st, [], f :: firings⟩ [] b ∧
      Related m cs ⟨f.change su, threads, threadTurns f.cause cs, firings⟩ b ∧ 0 < n := by
  have hkeeps := hf.writes st _ rfl
  have hparked' (c : Compiled) (hc : c ∈ cs) :
      c.Parked m false (f.change st) (threads c.control.index) :=
    (hparked c hc).congr (h.books hc) fun x hx => hkeeps x ((h.books hc).owned x hx)
  obtain ⟨st', ⟨n, hsteps⟩, htold, hsame⟩ := h.steps_respond ho hM
    (fun c => (threads c.control.index).awaits) (fun c hc => (hparked' c hc).waits) f.cause
    (turnsOf cs) firings
  have hfirst : Steps (Code.outward M (m.code cs) (ownedBy cs)) 1 ⟨st, [], f :: firings⟩ []
      ⟨f.change st, ((m.code cs).respond f.cause).map (.run 0) ++ turnsOf cs, firings⟩ := by
    rw [← m.reaction_eq]
    exact .single rfl
  have hagree' : Store.AgreeOff (ownedBy cs) st' (f.change su) := by
    intro x hx
    have hchange : Store.AgreeOff (ownedBy cs) (f.change st) (f.change su) := by
      cases hf.reads st su hagree with
      | some hrel => exact hrel
    rw [hsame x fun c hc heq => hx (heq ▸ (h.books hc).running_mem), hchange x hx]
  have hidle : Idle m f.cause [] cs st' threads := by
    refine ⟨by simp, fun c hc => (hparked' c hc).tell (h.books hc) (fun x hx hne => ?_) ?_⟩
    · refine hsame x fun d hd heq => ?_
      by_cases hindex : c.control.index = d.control.index
      · obtain rfl := h.eq_of_index hc hd hindex
        exact hne heq
      · refine h.foreign hc hd hindex hx ?_
        rw [heq]
        simp [Compiled.names, SequenceControl.names]
    · rw [htold c hc, (hparked' c hc).running]
      split <;> rfl
  have hnone : cs = [] ++ cs := rfl
  exact ⟨1 + n, _, hfirst.trans hsteps, .turns hnone hagree' hidle, by omega⟩

/-- Nothing is added to what is yet to happen. -/
theorem Script.mem_firings {M : Meaning R} {indices : List Nat} {a a' : Script.Config R}
    {es : List (Happening R)} (h : Script.step M indices a = some (es, a')) :
    ∀ f ∈ a'.firings, f ∈ a.firings := by
  intro f hf
  revert h
  fun_cases Script.step M indices a with
  | case1 => rintro ⟨⟩
  | case2 =>
      rintro ⟨⟩
      exact List.mem_cons_of_mem _ hf
  | case3 =>
      rintro ⟨⟩
      exact hf
  | case4 =>
      rintro ⟨⟩
      exact hf
  | case5 st threads index rest firings =>
      intro h
      obtain rfl := (Prod.mk.inj (Option.some.inj h)).2
      revert hf
      cases M.next st (threads index).frames with
      | pass frames => exact id
      | perform s frames =>
          dsimp only
          cases M.perform s st with
          | none => rintro ⟨⟩
          | some st' => exact id
      | delay due frames => exact id
      | await text frames => exact id

/-- What is yet to happen stays apart. -/
theorem Script.always_apart {M : Meaning R} {indices : List Nat} {owned : List String}
    {a : Script.Config R} (h : ∀ f ∈ a.firings, f.Apart owned) :
    Always (Script.step M indices) (fun a => ∀ f ∈ a.firings, f.Apart owned) a :=
  .of_invariant h fun _ _ _ ha hstep f hf => ha f (Script.mem_firings hstep f hf)

/-- What the code relies on in a state of the scripts: the guards of threads that are woken hold,
counts are steady, and what is yet to happen leaves the variables of the sequencer alone. -/
structure Sound (M : Meaning R) (cs : List Compiled) (a : Script.Config R) : Prop where
  guarded : a.guarded M (cs.map (·.guard)) = true
  steady : a.steady M = true
  apart : ∀ f ∈ a.firings, f.Apart (ownedBy cs)

/-- **Code simulates scripts** as long as they do what it relies on. Each step of the scripts is
answered by the code; it stands still only while a thread enters or leaves lists. -/
theorem Module.Hosts.simulates {M : Meaning R} (h : m.Hosts cs) (ho : Orderly m.prologue)
    (hM : M.Lawful) (hguards : ∀ c ∈ cs, M.Ignores (ownedBy cs) (.condition c.guard))
    (hignores : ∀ c ∈ cs, ∀ q ∈ partsOf c.script, M.Ignores (ownedBy cs) q) :
    Simulates (Script.step M (cs.map (·.control.index)))
      (Code.outward M (m.code cs) (ownedBy cs)) Script.Config.rank
      fun a b => Related m cs a b ∧
        Always (Script.step M (cs.map (·.control.index))) (Sound M cs) a := by
  rintro a b ⟨hrel, hsound⟩
  -- It is enough to answer a step: what the code relies on goes on to hold.
  suffices hanswer : match Script.step M (cs.map (·.control.index)) a with
      | none => ∃ n b', Steps (Code.outward M (m.code cs) (ownedBy cs)) n b [] b' ∧
          Code.outward M (m.code cs) (ownedBy cs) b' = none
      | some (es, a') => ∃ n b', Steps (Code.outward M (m.code cs) (ownedBy cs)) n b es b' ∧
          Related m cs a' b' ∧ (0 < n ∨ a'.rank < a.rank) by
    cases hstep : Script.step M (cs.map (·.control.index)) a with
    | none =>
        rw [hstep] at hanswer
        exact hanswer
    | some x =>
        obtain ⟨es, a'⟩ := x
        rw [hstep] at hanswer
        obtain ⟨n, b', hsteps, hrel', hprogress⟩ := hanswer
        exact ⟨n, b', hsteps, ⟨hrel', hsound.next hstep⟩, hprogress⟩
  obtain ⟨hguarded, hsteady, hfirings⟩ := hsound.now
  cases hrel with
  | ended => exact ⟨0, _, .refl _, rfl⟩
  | @turns before after cause st su threads firings hcs hagree hidle =>
      cases after with
      | nil =>
          rw [List.append_nil] at hcs
          subst hcs
          cases firings with
          | nil => exact ⟨0, _, .refl _, rfl⟩
          | cons f firings =>
              obtain ⟨n, b', hsteps, hrel', hn⟩ := h.simulates_firing ho hM hagree hidle.before
                (hfirings f List.mem_cons_self) firings
              refine ⟨n, b', hsteps, ?_, .inl hn⟩
              simpa [threadTurns, Function.comp_def] using hrel'
      | cons c after =>
          have hc : c ∈ cs := by simp [hcs]
          have hafter : Idle m cause before after st threads :=
            ⟨hidle.before, fun d hd => hidle.after d (List.mem_cons_of_mem _ hd)⟩
          have hparked := hidle.after c List.mem_cons_self
          cases hwoken : cause.wakes c.control.index (threads c.control.index).awaits with
          | true =>
              rw [hwoken] at hparked
              have hguard : M.bool c.guard st = true := by
                rw [hguards c hc st su hagree, ← h.getD_map (·.guard) hc (.bool true)]
                simpa [Script.Config.guarded, threadTurns, hwoken] using hguarded
              obtain ⟨n, b', hsteps, hrel', hn⟩ := h.simulates_wake hcs hM hguard hagree
                hafter hparked firings
              refine ⟨n, b', hsteps, ?_, .inl hn⟩
              simpa [hwoken, threadTurns] using hrel'
          | false =>
              rw [hwoken] at hparked
              obtain ⟨n, b', hsteps, hrel', hn⟩ := simulates_sleep hM hcs hagree hafter hparked
                firings
              refine ⟨n, b', hsteps, ?_, .inl hn⟩
              simpa [hwoken, threadTurns] using hrel'
  | @rest before after c cause st su threads firings hcs hagree hidle hparked =>
      have hc : c ∈ cs := by simp [hcs]
      have hstep : Code.outward M (m.code cs) (ownedBy cs)
          ⟨st, .rest c.control :: turnsOf after, firings⟩
          = some ([.rested c.control.index (threads c.control.index).awaits
              (threads c.control.index).due], ⟨st, turnsOf after, firings⟩) := by
        rw [← hparked.waits.awaits_eq h ho hc, ← hparked.due]
        rfl
      have hcs' : cs = (before ++ [c]) ++ after := by simp [hcs]
      exact ⟨1, _, .single hstep, .turns hcs' hagree (hidle.snoc hparked), .inl Nat.one_pos⟩
  | @go before after c cause st su threads firings ws tail hcs hagree hidle hgoing =>
      have hc : c ∈ cs := by simp [hcs]
      obtain ⟨hkept, ⟨expected, hmeets, hhold⟩, hrun⟩ := hgoing
      have hparts := fun q hq =>
        hkept.parts q (M.parts_next su (threads c.control.index).frames q hq)
      exact h.related_of_answer hcs hidle hkept hparts (Code.answer hM (h.books hc) hmeets
        (fun q hq => hignores c hc q (hkept.parts q hq)) hsteady hhold hrun hagree)

end Related

end Stimulus
