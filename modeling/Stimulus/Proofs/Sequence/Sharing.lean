import Mathlib.Data.List.Induction
import Stimulus.Proofs.Sequence.Hosted

/-!
# Who waits for what

The shared blocks of a module have been made by entering one sequence after the other. What they
list can be read off the scripts: a block lists the sequences that wait for its event somewhere, in
order, and every event that a sequence waits for has a block.

## Main results

* `listed_enteredAll`: what the blocks list after the signals of some scripts have been entered.
* `Module.Hosts.waiters_eq`, `Module.Hosts.exists_block`: the same for a module.
-/

namespace Stimulus

/-- Whether a script waits somewhere for an event with a given text. -/
def Compiled.waitsFor (c : Compiled) (text : String) : Bool :=
  (signalsOf c.script).any (·.text == text)

/-- The numbers of the sequences that wait somewhere for an event with a given text, in order. -/
def waitersOf (cs : List Compiled) (text : String) : List Nat :=
  (cs.filter (·.waitsFor text)).map (·.control.index)

/-- Blocks list waiters as given by their texts, which are different, and there is a block for each
text that has waiters. -/
structure Listed (blocks : List SharedEvent) (waiters : String → List Nat) : Prop where
  nodup : (blocks.map (·.event.text)).Nodup
  eq : ∀ b ∈ blocks, b.waiters = waiters b.event.text
  known : ∀ text, waiters text ≠ [] → ∃ b ∈ blocks, b.event.text = text

namespace Listed

variable {blocks : List SharedEvent} {waiters : String → List Nat}

/-- The blocks after a sequence has been entered for an event. It is not listed twice. -/
theorem entered (h : Listed blocks waiters) (index : Nat) (event : Event) :
    Listed (entered index blocks event) fun text =>
      if text = event.text ∧ index ∉ waiters text then waiters text ++ [index]
      else waiters text := by
  obtain ⟨hnodup, heq, hknown⟩ := h
  constructor
  case nodup => exact nodup_texts_entered hnodup index event
  case eq =>
      intro b' hb'
      obtain ⟨j, hj⟩ := List.getElem?_of_mem hb'
      rw [getElem?_entered] at hj
      split at hj
      case isTrue hplace =>
          -- The block for the event takes the sequence in, or it is made for the sequence.
          obtain rfl := Option.some.inj hj
          cases hb : blocks[j]? with
          | none =>
              have hnone : waiters event.text = [] := by
                by_contra hne
                obtain ⟨b, hb₁, htext⟩ := hknown _ hne
                obtain ⟨i, hi⟩ := List.getElem?_of_mem hb₁
                rw [placeOf_eq hnodup hi htext] at hplace
                rw [hplace, hi] at hb
                cases hb
              simp [SharedEvent.first, hnone]
          | some b =>
              have htext : b.event.text = event.text := text_of_placeOf (hplace ▸ hb)
              have hwaiters := heq b (List.mem_of_getElem? hb)
              rw [Option.elim, (b.join_keeps index (j + 1)).1, htext, SharedEvent.join]
              rw [htext] at hwaiters
              simp only [true_and, List.contains_iff_mem, hwaiters]
              split <;> simp_all
      case isFalse hplace =>
          have hother : b'.event.text ≠ event.text :=
            fun htext => hplace (placeOf_eq hnodup hj htext).symm
          simp only [hother, false_and, if_false]
          exact heq b' (List.mem_of_getElem? hj)
  case known =>
      intro text htext
      have hmem : text ∈ (Stimulus.entered index blocks event).map (·.event.text) := by
        by_cases hnew : text = event.text
        · rw [Stimulus.entered, map_text_enteredFrom, hnew]
          split
          · assumption
          · exact List.mem_append_right _ (List.mem_singleton_self _)
        · simp only [hnew, false_and, if_false] at htext
          obtain ⟨b, hb, rfl⟩ := hknown text htext
          have := List.mem_map_of_mem (f := (·.event.text)) hb
          rw [Stimulus.entered, map_text_enteredFrom]
          split
          · exact this
          · exact List.mem_append_left _ this
      exact List.mem_map.mp hmem

/-- The blocks after a new sequence has been entered for several events. The induction is on the
events from the last one on, as the sequence is new only for the first one. -/
theorem enteredAll (h : Listed blocks waiters) {index : Nat}
    (hnew : ∀ text, index ∉ waiters text) (events : List Event) :
    Listed (events.foldl (Stimulus.entered index) blocks) fun text =>
      if events.any (·.text == text) then waiters text ++ [index] else waiters text := by
  induction events using List.reverseRecOn with
  | nil => exact h
  | append_singleton events event ih =>
      rw [List.foldl_append, List.foldl_cons, List.foldl_nil]
      convert ih.entered index event using 2 with text
      have hnew := hnew text
      rw [List.any_append, List.any_cons, List.any_nil, Bool.or_false]
      cases events.any (·.text == text) with
      | true => simp
      | false =>
          by_cases htext : text = event.text
          · subst htext
            simp [hnew]
          · have : (event.text == text) = false := by simpa using Ne.symm htext
            simp [htext, this]

end Listed

/-- **What blocks list.** After the signals of sequences with different numbers have been entered, a
block lists the sequences that wait for its event. -/
theorem listed_enteredAll {cs : List Compiled} (h : (cs.map (·.control.index)).Nodup) :
    Listed (enteredAll cs) (waitersOf cs) := by
  induction cs using List.reverseRecOn with
  | nil => exact ⟨List.nodup_nil, by simp [enteredAll], by simp [waitersOf]⟩
  | append_singleton cs c ih =>
      rw [List.map_append, List.nodup_append] at h
      obtain ⟨hcs, -, hlast⟩ := h
      have hnew (text : String) : c.control.index ∉ waitersOf cs text := by
        intro hmem
        obtain ⟨d, hd, hindex⟩ := List.mem_map.mp hmem
        have hd' := List.mem_map_of_mem (f := (·.control.index)) (List.mem_of_mem_filter hd)
        exact hlast _ hd' _ (List.mem_singleton_self _) hindex
      have hall := (ih hcs).enteredAll hnew (signalsOf c.script)
      have hblocks : enteredAll (cs ++ [c])
          = (signalsOf c.script).foldl (entered c.control.index) (enteredAll cs) := by
        rw [enteredAll, List.foldl_append]
        rfl
      rw [hblocks]
      convert hall using 1
      funext text
      rw [waitersOf, List.filter_append, List.map_append, List.filter_singleton,
        Compiled.waitsFor]
      cases (signalsOf c.script).any (·.text == text) with
      | true => rfl
      | false => exact List.append_nil _

namespace Module.Hosts

variable {m : Module} {cs : List Compiled} (h : m.Hosts cs)

include h

/-- Sequences are numbered by their positions, counted from 1. -/
theorem indices : cs.map (·.control.index) = List.range' 1 cs.length := by
  have hcontrols := congrArg (List.map (·.index)) h.controls
  simpa [Function.comp_def] using hcontrols

/-- Sequences have different numbers. -/
theorem nodup_indices : (cs.map (·.control.index)).Nodup := by
  rw [h.indices]
  exact List.nodup_range'

/-- What belongs to a sequence stands in a list at the position that its number says. -/
theorem getD_map {α : Type} (f : Compiled → α) {c : Compiled} (hc : c ∈ cs) (d : α) :
    (cs.map f).getD (c.control.index - 1) d = f c := by
  obtain ⟨j, hj, rfl⟩ := List.getElem_of_mem hc
  have hindex : cs[j].control.index = j + 1 := by
    have hlt : j < (cs.map (·.control.index)).length := by simpa using hj
    have hget : (cs.map (·.control.index))[j] = 1 + 1 * j := by
      simp only [h.indices, List.getElem_range']
    rw [List.getElem_map] at hget
    omega
  rw [hindex, Nat.add_sub_cancel, List.getD_eq_getElem?_getD, List.getElem?_map,
    List.getElem?_eq_getElem hj]
  rfl

/-- The blocks of a module list what the scripts say. -/
theorem listed : Listed (sharedEvents m.prologue) (waitersOf cs) := by
  rw [h.blocks]
  exact listed_enteredAll h.nodup_indices

/-- The waiters of a block are in increasing order. -/
theorem waiters_increasing {b : SharedEvent} (hb : b ∈ sharedEvents m.prologue) :
    b.waiters.Pairwise (· < ·) := by
  rw [h.listed.eq b hb, waitersOf]
  refine List.Pairwise.sublist (List.filter_sublist.map _) ?_
  rw [h.indices]
  exact List.pairwise_lt_range'

/-- A sequence is listed in a block exactly if its script waits for the event of the block. -/
theorem mem_waiters {b : SharedEvent} (hb : b ∈ sharedEvents m.prologue) {index : Nat} :
    index ∈ b.waiters ↔ ∃ c ∈ cs, c.control.index = index ∧ c.waitsFor b.event.text := by
  rw [h.listed.eq b hb, waitersOf]
  simp only [List.mem_map, List.mem_filter]
  constructor
  · rintro ⟨c, ⟨hc, hwaits⟩, rfl⟩
    exact ⟨c, hc, rfl, hwaits⟩
  · rintro ⟨c, hc, rfl, hwaits⟩
    exact ⟨c, ⟨hc, hwaits⟩, rfl⟩

/-- Every event that a sequence waits for has a block. -/
theorem exists_block {c : Compiled} (hc : c ∈ cs) {event : Event}
    (hevent : event ∈ signalsOf c.script) :
    ∃ b ∈ sharedEvents m.prologue, b.event.text = event.text := by
  have hwaits : c.waitsFor event.text = true :=
    List.any_eq_true.mpr ⟨event, hevent, beq_self_eq_true _⟩
  have hmem : c.control.index ∈ waitersOf cs event.text :=
    List.mem_map_of_mem (List.mem_filter.mpr ⟨hc, hwaits⟩)
  exact h.listed.known _ (List.ne_nil_of_mem hmem)

end Module.Hosts

end Stimulus
