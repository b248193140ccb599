import Mathlib.Data.List.Nodup
import Stimulus.Proofs.Build

/-!
# Registering signals

A sequence that waits for an event is entered into the shared block of that event, which is made
if there is none. The search counts the blocks that it passes, so the number of an event is the
position of its block, counted from 1, and every clause that is added to a block asks for that
number. Blocks are never removed and never change their places.

## Main results

* `Module.registerSignal_eq`: what the registration of a signal does to the prologue, and the
  number that it returns.
* `Persist.registeredAll`: blocks survive the registration of further signals.
* `Orderly.registered`: no two blocks have the same text, and the clauses of a block stay those of
  its waiters, with its position as their number.
-/

namespace Stimulus

open Build

/-- The prologue after sequence `index` has been entered into the block of an event. -/
def registered (index : Nat) (prologue : List PrologueItem) (event : Event) :
    List PrologueItem :=
  (enterSignal index event 1 prologue).2

/-- The prologue after sequence `index` has been entered into the blocks of several events. -/
def registeredAll (index : Nat) (prologue : List PrologueItem) (events : List Event) :
    List PrologueItem :=
  events.foldl (registered index) prologue

/-! ### The blocks of a prologue -/

/-- The blocks of two prologues in a row. -/
@[simp] theorem sharedEvents_append (xs ys : List PrologueItem) :
    sharedEvents (xs ++ ys) = sharedEvents xs ++ sharedEvents ys := by
  simp [sharedEvents]

/-- A statement of the prologue is not a shared block. -/
@[simp] theorem sharedEvents_statement (s : Statement) :
    sharedEvents [.statement s] = [] :=
  rfl

/-- The place of an event among some blocks: that of the first block with its text. -/
def placeOf (event : Event) (blocks : List SharedEvent) : Nat :=
  blocks.findIdx (·.event.text == event.text)

/-- The place of an event if the first block is the one for it. -/
theorem placeOf_cons_of_eq {event : Event} {b : SharedEvent} {blocks : List SharedEvent}
    (h : b.event.text = event.text) : placeOf event (b :: blocks) = 0 := by
  simp [placeOf, List.findIdx_cons, h]

/-- The place of an event if the first block is one for another event. -/
theorem placeOf_cons_of_ne {event : Event} {b : SharedEvent} {blocks : List SharedEvent}
    (h : b.event.text ≠ event.text) : placeOf event (b :: blocks) = placeOf event blocks + 1 := by
  rw [placeOf, List.findIdx_cons, beq_eq_false_iff_ne.mpr h]
  rfl

/-- The block at the place of an event is one for the event. -/
theorem text_of_placeOf {event : Event} {b : SharedEvent} {blocks : List SharedEvent}
    (h : blocks[placeOf event blocks]? = some b) : b.event.text = event.text := by
  obtain ⟨hlt, rfl⟩ := List.getElem?_eq_some_iff.mp h
  exact beq_iff_eq.mp (List.findIdx_getElem (w := hlt))

/-- The place of an event among blocks with different texts. -/
theorem placeOf_eq {event : Event} {b : SharedEvent} {blocks : List SharedEvent}
    (hnodup : (blocks.map (·.event.text)).Nodup) {j : Nat} (hb : blocks[j]? = some b)
    (htext : b.event.text = event.text) : placeOf event blocks = j := by
  obtain ⟨hj, rfl⟩ := List.getElem?_eq_some_iff.mp hb
  rw [placeOf, List.findIdx_eq hj]
  refine ⟨by simp [htext], fun i hi => ?_⟩
  have hne := List.pairwise_iff_getElem.mp hnodup i j (by simp; omega) (by simpa using hj) hi
  simpa [← htext] using hne

/-- The blocks after sequence `index` has been entered for an event. They are counted from `number`
on: the first one for the event takes the sequence in, or there is a new one at the end. -/
def enteredFrom (index : Nat) (event : Event) (number : Nat) : List SharedEvent → List SharedEvent
  | [] => [.first index event number]
  | b :: rest =>
    if b.event.text = event.text then b.join index number :: rest
    else b :: enteredFrom index event (number + 1) rest

/-- The blocks after sequence `index` has been entered for an event. -/
def entered (index : Nat) (blocks : List SharedEvent) (event : Event) : List SharedEvent :=
  enteredFrom index event 1 blocks

/-- **The search for a block** returns its position and enters the sequence there. -/
theorem enterSignal_eq (index : Nat) (event : Event) (number : Nat)
    (prologue : List PrologueItem) :
    (enterSignal index event number prologue).1
        = number + placeOf event (sharedEvents prologue) ∧
      sharedEvents (enterSignal index event number prologue).2
        = enteredFrom index event number (sharedEvents prologue) := by
  induction prologue generalizing number with
  | nil => exact ⟨rfl, rfl⟩
  | cons item rest ih =>
      cases item with
      | statement s => exact ih number
      | shared b =>
          change _ = number + placeOf event (b :: sharedEvents rest) ∧
            _ = enteredFrom index event number (b :: sharedEvents rest)
          rw [enterSignal, enteredFrom]
          by_cases htext : b.event.text = event.text
          · rw [if_pos htext, if_pos htext, placeOf_cons_of_eq htext]
            exact ⟨rfl, rfl⟩
          · rw [if_neg htext, if_neg htext, placeOf_cons_of_ne htext]
            obtain ⟨hfound, hblocks⟩ := ih (number + 1)
            exact ⟨by rw [hfound]; omega, congrArg (b :: ·) hblocks⟩

/-- A registration enters a sequence into the blocks. -/
theorem sharedEvents_registered (index : Nat) (prologue : List PrologueItem) (event : Event) :
    sharedEvents (registered index prologue event)
      = entered index (sharedEvents prologue) event :=
  (enterSignal_eq index event 1 prologue).2

/-- Several registrations enter a sequence into the blocks one after the other. -/
theorem sharedEvents_registeredAll (index : Nat) (prologue : List PrologueItem)
    (events : List Event) :
    sharedEvents (registeredAll index prologue events)
      = events.foldl (entered index) (sharedEvents prologue) := by
  induction events generalizing prologue with
  | nil => rfl
  | cons e events ih =>
      rw [registeredAll, List.foldl_cons, ← registeredAll, ih, sharedEvents_registered,
        List.foldl_cons]

/-- What stands at a position after a sequence has been entered: the block at the place of the event
has taken the sequence in, or is new, and the others are what they were. -/
theorem getElem?_enteredFrom (index : Nat) (event : Event) (number : Nat)
    (blocks : List SharedEvent) (j : Nat) :
    (enteredFrom index event number blocks)[j]? =
      if j = placeOf event blocks then
        some ((blocks[j]?).elim (.first index event (number + j)) (·.join index (number + j)))
      else blocks[j]? := by
  induction blocks generalizing number j with
  | nil =>
      cases j with
      | zero => rfl
      | succ j => rfl
  | cons b rest ih =>
      rw [enteredFrom]
      by_cases htext : b.event.text = event.text
      · rw [if_pos htext, placeOf_cons_of_eq htext]
        cases j with
        | zero => rfl
        | succ j => rfl
      · rw [if_neg htext, placeOf_cons_of_ne htext]
        cases j with
        | zero => simp
        | succ j =>
            simp only [List.getElem?_cons_succ, ih, Nat.add_right_comm number 1 j,
              Nat.add_right_cancel_iff]
            rfl

/-- What stands at a position after a sequence has been entered. -/
theorem getElem?_entered (index : Nat) (event : Event) (blocks : List SharedEvent) (j : Nat) :
    (entered index blocks event)[j]? =
      if j = placeOf event blocks then
        some ((blocks[j]?).elim (.first index event (j + 1)) (·.join index (j + 1)))
      else blocks[j]? := by
  rw [entered, getElem?_enteredFrom, Nat.add_comm 1]

/-- The texts of the blocks after a sequence has been entered: that of the event is among them. -/
theorem map_text_enteredFrom (index : Nat) (event : Event) (number : Nat)
    (blocks : List SharedEvent) :
    (enteredFrom index event number blocks).map (·.event.text) =
      if event.text ∈ blocks.map (·.event.text) then blocks.map (·.event.text)
      else blocks.map (·.event.text) ++ [event.text] := by
  induction blocks generalizing number with
  | nil => rfl
  | cons b rest ih =>
      rw [enteredFrom]
      by_cases htext : b.event.text = event.text
      · have hjoin : (b.join index number).event = b.event := by
          unfold SharedEvent.join
          split <;> rfl
        simp [htext, hjoin]
      · have hmem : event.text ∈ b.event.text :: rest.map (·.event.text)
            ↔ event.text ∈ rest.map (·.event.text) := by
          simp [Ne.symm htext]
        rw [if_neg htext, List.map_cons, ih, List.map_cons]
        by_cases hrest : event.text ∈ rest.map (·.event.text)
        · rw [if_pos hrest, if_pos (hmem.mpr hrest)]
        · rw [if_neg hrest, if_neg (mt hmem.mp hrest)]
          rfl

/-- What holds of the statements of shared blocks still holds after a sequence has been entered, if
it holds of those that resume the sequence. -/
theorem forall_clauses_registered {P : Statement → Prop} {index : Nat}
    (hnew : ∀ number, P (SequenceControl.resumeOn ⟨index⟩ number)) {prologue : List PrologueItem}
    (h : ∀ b ∈ sharedEvents prologue, ∀ s ∈ b.clauses, P s) (event : Event) :
    ∀ b ∈ sharedEvents (registered index prologue event), ∀ s ∈ b.clauses, P s := by
  intro b hb
  obtain ⟨j, hj⟩ := List.getElem?_of_mem hb
  rw [sharedEvents_registered, getElem?_entered] at hj
  split at hj
  · obtain rfl := Option.some.inj hj
    cases hold : (sharedEvents prologue)[j]? with
    | none => exact List.forall_mem_singleton.mpr (hnew _)
    | some b =>
        have hb := h b (List.mem_of_getElem? hold)
        simp only [Option.elim, SharedEvent.join]
        split
        · exact hb
        · exact List.forall_mem_append.mpr ⟨hb, List.forall_mem_singleton.mpr (hnew _)⟩
  · exact h b (List.mem_of_getElem? hj)

/-- Blocks with different texts stay so. -/
theorem nodup_texts_entered {blocks : List SharedEvent}
    (h : (blocks.map (·.event.text)).Nodup) (index : Nat) (event : Event) :
    ((entered index blocks event).map (·.event.text)).Nodup := by
  rw [entered, map_text_enteredFrom]
  split
  · exact h
  case isFalse hnew =>
      refine List.nodup_append.mpr ⟨h, List.nodup_singleton _, ?_⟩
      rintro text htext _ hlast rfl
      exact hnew (List.mem_singleton.mp hlast ▸ htext)

/-! ### The statements of a prologue -/

/-- The statements of a prologue that are no shared blocks. -/
def prologueStatements (prologue : List PrologueItem) : List Statement :=
  prologue.filterMap fun
    | .statement s => some s
    | .shared _ => none

/-- The statements of two prologues in a row. -/
@[simp] theorem prologueStatements_append (xs ys : List PrologueItem) :
    prologueStatements (xs ++ ys) = prologueStatements xs ++ prologueStatements ys := by
  simp [prologueStatements]

/-- A statement is one of a prologue. -/
@[simp] theorem prologueStatements_statement (s : Statement) :
    prologueStatements [.statement s] = [s] :=
  rfl

/-- The search for a block leaves the statements alone. -/
theorem prologueStatements_enterSignal (index : Nat) (event : Event) (number : Nat)
    (prologue : List PrologueItem) :
    prologueStatements (enterSignal index event number prologue).2
      = prologueStatements prologue := by
  induction prologue generalizing number with
  | nil => rfl
  | cons item rest ih =>
      cases item with
      | statement s => exact congrArg (s :: ·) (ih number)
      | shared b =>
          rw [enterSignal]
          split
          · rfl
          · exact ih (number + 1)

/-- A registration leaves the statements alone. -/
theorem prologueStatements_registered (index : Nat) (prologue : List PrologueItem)
    (event : Event) :
    prologueStatements (registered index prologue event) = prologueStatements prologue :=
  prologueStatements_enterSignal index event 1 prologue

/-- Registrations leave the statements alone. -/
theorem prologueStatements_registeredAll (index : Nat) (prologue : List PrologueItem)
    (events : List Event) :
    prologueStatements (registeredAll index prologue events) = prologueStatements prologue := by
  induction events generalizing prologue with
  | nil => rfl
  | cons e events ih =>
      rw [registeredAll, List.foldl_cons, ← registeredAll, ih, prologueStatements_registered]

/-! ### The construction step -/

/-- The number that a prologue gives to an event: the position of its block, counted from 1. -/
def numberIn (prologue : List PrologueItem) (event : Event) : Nat :=
  placeOf event (sharedEvents prologue) + 1

/-- Events with the same text have the same number. -/
theorem numberIn_congr {prologue : List PrologueItem} {event event' : Event}
    (h : event.text = event'.text) : numberIn prologue event = numberIn prologue event' := by
  rw [numberIn, numberIn, placeOf, placeOf, h]

/-- **The registration of a signal** succeeds. It changes the prologue only, and its result is the
number of the event. -/
theorem Module.registerSignal_eq (index : Nat) (event : Event) (m : Module) :
    Module.registerSignal index event m
      = .ok (numberIn m.prologue event)
          { m with prologue := registered index m.prologue event } := by
  have hnumber : (enterSignal index event 1 m.prologue).1 = numberIn m.prologue event := by
    rw [(enterSignal_eq index event 1 m.prologue).1, Nat.add_comm]
    rfl
  rw [← hnumber]
  rfl

/-- What a successful registration of a signal says: the number it returns is the position of a
block for the event. -/
theorem Module.registerSignal_ok {index : Nat} {event : Event} {m m' : Module} {n : Nat}
    (h : Module.registerSignal index event m = .ok n m') :
    m' = { m with prologue := registered index m.prologue event } ∧
      ∃ (j : Nat) (b : SharedEvent), (sharedEvents m'.prologue)[j]? = some b ∧
        b.event.text = event.text ∧ n = j + 1 := by
  rw [Module.registerSignal_eq] at h
  injection h with hn hm
  subst hn hm
  refine ⟨rfl, placeOf event (sharedEvents m.prologue), ?_⟩
  dsimp only
  rw [sharedEvents_registered, getElem?_entered, if_pos rfl]
  refine ⟨_, rfl, ?_, rfl⟩
  -- A new block is made for the event; a known one is at the place because it has its text.
  cases hb : (sharedEvents m.prologue)[placeOf event (sharedEvents m.prologue)]? with
  | none => rfl
  | some b =>
      have htext := text_of_placeOf hb
      simp only [Option.elim, SharedEvent.join]
      split <;> exact htext

/-! ### Blocks persist -/

/-- Every block of a prologue is still there in another one, at the same position, with its event,
and with the sequences that it resumes and their clauses in front. -/
def Persist (before after : List PrologueItem) : Prop :=
  ∀ (j : Nat) (b : SharedEvent), (sharedEvents before)[j]? = some b →
    ∃ b' : SharedEvent, (sharedEvents after)[j]? = some b' ∧
      b'.event = b.event ∧ b.waiters <+: b'.waiters ∧ b.clauses <+: b'.clauses

/-- A block that a sequence joins keeps its event, its waiters and its clauses. -/
theorem SharedEvent.join_keeps (index number : Nat) (b : SharedEvent) :
    (b.join index number).event = b.event ∧ b.waiters <+: (b.join index number).waiters ∧
      b.clauses <+: (b.join index number).clauses := by
  unfold join
  split
  · exact ⟨rfl, List.prefix_refl _, List.prefix_refl _⟩
  · exact ⟨rfl, List.prefix_append _ _, List.prefix_append _ _⟩

namespace Persist

/-- Blocks persist when nothing changes. -/
theorem refl (prologue : List PrologueItem) : Persist prologue prologue :=
  fun _ b hb => ⟨b, hb, rfl, List.prefix_refl _, List.prefix_refl _⟩

/-- Blocks that persist twice persist. -/
theorem trans {p q r : List PrologueItem} (h : Persist p q) (h' : Persist q r) :
    Persist p r := by
  intro j b hb
  obtain ⟨b', hb', he, hw, hc⟩ := h j b hb
  obtain ⟨b'', hb'', he', hw', hc'⟩ := h' j b' hb'
  exact ⟨b'', hb'', he'.trans he, hw.trans hw', hc.trans hc'⟩

/-- Blocks persist when items are added at the end. -/
theorem append (prologue items : List PrologueItem) : Persist prologue (prologue ++ items) := by
  intro j b hb
  refine ⟨b, ?_, rfl, List.prefix_refl _, List.prefix_refl _⟩
  obtain ⟨hj, -⟩ := List.getElem?_eq_some_iff.mp hb
  rw [sharedEvents_append, List.getElem?_append_left hj, hb]

/-- Blocks survive a registration. -/
theorem registered (index : Nat) (prologue : List PrologueItem) (event : Event) :
    Persist prologue (registered index prologue event) := by
  intro j b hb
  rw [sharedEvents_registered, getElem?_entered, hb]
  split
  · exact ⟨_, rfl, b.join_keeps index (j + 1)⟩
  · exact ⟨b, rfl, rfl, List.prefix_refl _, List.prefix_refl _⟩

/-- Blocks survive registrations. -/
theorem registeredAll (index : Nat) (prologue : List PrologueItem) (events : List Event) :
    Persist prologue (registeredAll index prologue events) := by
  induction events generalizing prologue with
  | nil => exact refl prologue
  | cons e events ih => exact (registered index prologue e).trans (ih _)

end Persist

/-! ### Numbers and texts -/

/-- The clauses of a block are those of its waiters, in order, and each asks for the number. -/
def SharedEvent.Asks (number : Nat) (b : SharedEvent) : Prop :=
  b.clauses = b.waiters.map fun index => SequenceControl.resumeOn ⟨index⟩ number

/-- A sequence that joins a block adds its clause as it adds itself. -/
theorem SharedEvent.Asks.join {number : Nat} {b : SharedEvent} (h : b.Asks number)
    (index : Nat) : (b.join index number).Asks number := by
  unfold SharedEvent.join
  split
  · exact h
  · rw [Asks, List.map_append, ← show b.clauses = _ from h]
    rfl

/-- No two events of the blocks of a prologue have the same text, and the clauses of each block are
those of its waiters, with its position, counted from 1, as their number. -/
structure Orderly (prologue : List PrologueItem) : Prop where
  texts : ((sharedEvents prologue).map (·.event.text)).Nodup
  clauses : ∀ (j : Nat) (b : SharedEvent), (sharedEvents prologue)[j]? = some b →
    b.Asks (j + 1)

namespace Orderly

/-- A prologue without items is orderly. -/
theorem nil : Orderly [] :=
  ⟨List.nodup_nil, fun _ _ hb => nomatch hb⟩

/-- Statements do not matter. -/
theorem statement {prologue : List PrologueItem} (h : Orderly prologue) (s : Statement) :
    Orderly (prologue ++ [.statement s]) := by
  have hblocks : sharedEvents (prologue ++ [.statement s]) = sharedEvents prologue := by simp
  exact ⟨hblocks ▸ h.texts, hblocks ▸ h.clauses⟩

/-- A registration keeps a prologue orderly. -/
theorem registered {prologue : List PrologueItem} (h : Orderly prologue) (index : Nat)
    (event : Event) : Orderly (registered index prologue event) := by
  constructor
  · rw [sharedEvents_registered]
    exact nodup_texts_entered h.texts index event
  · intro j b hb
    rw [sharedEvents_registered, getElem?_entered] at hb
    split at hb
    · obtain rfl := Option.some.inj hb
      cases hold : (sharedEvents prologue)[j]? with
      | none => exact rfl
      | some b => exact (h.clauses j b hold).join index
    · exact h.clauses j b hb

/-- Registrations keep a prologue orderly. -/
theorem registeredAll {prologue : List PrologueItem} (h : Orderly prologue) (index : Nat)
    (events : List Event) : Orderly (registeredAll index prologue events) := by
  induction events generalizing prologue with
  | nil => exact h
  | cons e events ih => exact ih (h.registered index e)

variable {prologue : List PrologueItem} (h : Orderly prologue)

include h

/-- In an orderly prologue the number of an event is the position of the block with its text. -/
theorem numberIn_eq {j : Nat} {b : SharedEvent} (hb : (sharedEvents prologue)[j]? = some b)
    {event : Event} (htext : event.text = b.event.text) : numberIn prologue event = j + 1 := by
  rw [numberIn, placeOf_eq h.texts hb htext.symm]

/-- The block at the position that the number of its event gives. -/
theorem getElem?_of_mem {b : SharedEvent} (hb : b ∈ sharedEvents prologue) :
    (sharedEvents prologue)[placeOf b.event (sharedEvents prologue)]? = some b := by
  obtain ⟨j, hj⟩ := List.getElem?_of_mem hb
  have hnumber := h.numberIn_eq hj rfl
  rw [numberIn, Nat.add_right_cancel_iff] at hnumber
  rw [hnumber, hj]

/-- The clauses of a block ask for the number of its event. -/
theorem asks {b : SharedEvent} (hb : b ∈ sharedEvents prologue) :
    b.Asks (numberIn prologue b.event) :=
  h.clauses _ b (h.getElem?_of_mem hb)

/-- Blocks whose events have the same number are the same. -/
theorem eq_of_number {b b' : SharedEvent} (hb : b ∈ sharedEvents prologue)
    (hb' : b' ∈ sharedEvents prologue)
    (hnumber : numberIn prologue b.event = numberIn prologue b'.event) : b = b' := by
  have hat := h.getElem?_of_mem hb
  rw [Nat.add_right_cancel hnumber, h.getElem?_of_mem hb'] at hat
  exact (Option.some.inj hat).symm

end Orderly

end Stimulus
