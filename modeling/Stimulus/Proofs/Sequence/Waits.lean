import Stimulus.Proofs.Sequence.Sharing

/-!
# Waits at any depth

A script may wait anywhere in its tree of statements. In a script that a module has accepted, all
waits are among its parts: what is placed in a state as it is holds no step of a script.

## Main results

* `Sequence.Layout.anyNodeOf_eq`: the waits in the tree of a laid out script are its signals.
* `Module.Hosts.anyNodeOf_eq`: the same for the scripts that a module hosts.
-/

namespace Stimulus

/-! ### Waits -/

namespace Statement

/-- Whether a statement waits for an event with a given text. -/
def awaitsText (text : String) : Statement → Bool
  | .step (.signal event) => event.text == text
  | _ => false

/-- A wait is a step of a script. -/
theorem isScriptStep_of_awaitsText {text : String} {s : Statement}
    (h : s.awaitsText text = true) : s.isScriptStep = true := by
  unfold awaitsText at h
  split at h
  case h_1 => rfl
  case h_2 => cases h

/-- A statement without a step of a script does not wait. -/
theorem anyNode_awaitsText {s : Statement} (h : s.hasScriptStep = false) (text : String) :
    s.anyNode (awaitsText text) = false := by
  by_contra hwaits
  rw [Bool.not_eq_false] at hwaits
  have hstep := anyNode_mono (fun _ => isScriptStep_of_awaitsText) hwaits
  rw [hasScriptStep, hstep] at h
  cases h

/-- A statement that is placed as it is does not wait. -/
theorem anyNode_of_placed? {s t : Statement} (h : s.placed? = some t)
    (ht : t.hasScriptStep = false) (text : String) : s.anyNode (awaitsText text) = false := by
  unfold placed? at h
  split at h
  case h_1 => rfl
  case h_2 =>
      obtain rfl := Option.some.inj h
      exact anyNode_awaitsText ht text
  case h_3 => rfl
  case h_4 => cases h

end Statement

namespace Sequence

/-- The body of a loop holds its waits. -/
theorem LoopShape.anyNode_eq {s : Statement} {prepare next : List Work} {condition : Expr .bool}
    {body : List Statement} {own : List String}
    (h : LoopShape s prepare condition next body own) (text : String) :
    s.anyNode (Statement.awaitsText text) = anyNodeOf (Statement.awaitsText text) body := by
  cases h <;> rfl

/-- The parts of the body of a loop are parts of the loop. -/
theorem LoopShape.parts_subset {s : Statement} {prepare next : List Work} {condition : Expr .bool}
    {body : List Statement} {own : List String}
    (h : LoopShape s prepare condition next body own) : ∀ q ∈ partsOf body, q ∈ s.parts := by
  cases h <;> simp +contextual [Statement.parts]

/-- **The waits of a laid out script** are its signals, as long as its plain statements hold no
steps. -/
theorem Layout.anyNodeOf_eq {number : Event → Nat} {base : Nat} {pending : List Work}
    {items : List Statement} {counters : List String} {f : Fragment}
    (h : Layout number base pending items counters f)
    (hplain : ∀ t, .plain t ∈ partsOf items → t.hasScriptStep = false) (text : String) :
    anyNodeOf (Statement.awaitsText text) items = (signalsOf items).any (·.text == text) := by
  have hrest {s : Statement} {rest : List Statement}
      (hall : ∀ t, .plain t ∈ partsOf (s :: rest) → t.hasScriptStep = false) :
      ∀ t, .plain t ∈ partsOf rest → t.hasScriptStep = false :=
    fun t ht => hall t (List.mem_append_right _ ht)
  induction h with
  | nil => rfl
  | @list _ _ items rest _ _ _ ih =>
      have hspliced : partsOf (.list items :: rest) = partsOf (items ++ rest) := by
        rw [partsOf_append, partsOf, Statement.parts]
      rw [hspliced] at hplain
      rw [signalsOf_cons, Statement.signals_list, ← signalsOf_append, ← ih hplain,
        anyNodeOf_append]
      rfl
  | @work _ _ s t rest _ _ hs _ ih =>
      have ht : t.hasScriptStep = false := by
        refine hplain t (List.mem_append_left _ ?_)
        have hmem : t ∈ s.plain := by simp [Statement.plain_of_placed? hs]
        obtain ⟨q, hq, hqt⟩ := List.mem_filterMap.mp hmem
        cases q with
        | plain u =>
            obtain rfl := Option.some.inj hqt
            exact hq
        | _ => cases hqt
      rw [anyNodeOf, Statement.anyNode_of_placed? hs ht, Bool.false_or, ih (hrest hplain),
        signalsOf_cons, signals_of_placed? hs, List.nil_append]
  | @wait _ _ s tail rest _ _ hs _ ih =>
      rw [anyNodeOf, ih (hrest hplain), signalsOf_cons, List.any_append]
      congr 1
      unfold Statement.waitTail? at hs
      split at hs
      case h_1 => rfl
      case h_2 => simp [Statement.anyNode, Statement.awaitsText, Statement.signals, Statement.parts,
          Part.signal?]
      case h_3 => cases hs
  | @when _ _ condition yes rest _ _ _ _ _ _ ihy ih =>
      have hyes : ∀ t, .plain t ∈ partsOf yes → t.hasScriptStep = false :=
        fun t ht => hplain t (by simp [partsOf, Statement.parts, ht])
      rw [anyNodeOf, ih (hrest hplain), signalsOf_cons, Statement.signals_branch, signalsOf_nil,
        List.append_nil, List.any_append, ← ihy hyes]
      simp [Statement.anyNode, Statement.awaitsText, anyNodeOf]
  | @either _ _ condition yes no rest _ _ _ _ _ _ _ _ _ _ ihy ihn ih =>
      have hyes : ∀ t, .plain t ∈ partsOf yes → t.hasScriptStep = false :=
        fun t ht => hplain t (by simp [partsOf, Statement.parts, ht])
      have hno : ∀ t, .plain t ∈ partsOf no → t.hasScriptStep = false :=
        fun t ht => hplain t (by simp [partsOf, Statement.parts, ht])
      rw [anyNodeOf, ih (hrest hplain), signalsOf_cons, Statement.signals_branch, List.any_append,
        List.any_append, ← ihy hyes, ← ihn hno]
      simp [Statement.anyNode, Statement.awaitsText]
  | @loop _ _ s _ _ _ body rest _ _ _ _ _ hs _ _ ihb ih =>
      have hbody : ∀ t, .plain t ∈ partsOf body → t.hasScriptStep = false :=
        fun t ht => hplain t (List.mem_append_left _ (hs.parts_subset _ ht))
      rw [anyNodeOf, ih (hrest hplain), signalsOf_cons, List.any_append, hs.anyNode_eq,
        hs.signals_eq, ihb hbody]

end Sequence

/-! ### Hosted scripts -/

namespace Module.Hosts

variable {m : Module} {cs : List Compiled} (h : m.Hosts cs) (ho : Orderly m.prologue)

include h ho

/-- The plain statements of a hosted script hold no steps. -/
theorem stepless_plain {c : Compiled} (hc : c ∈ cs) {t : Statement}
    (ht : .plain t ∈ partsOf c.script) : t.hasScriptStep = false := by
  -- The statement is work of a state, and so it stands in an arm of the case, which was looked
  -- through when the runner was added to the body.
  have hlayout := h.layout c hc _ (Sequence.agrees_numberIn ho)
  have hwork : t ∈ (c.flow.flatMap (·.work)).filterMap (·.user?) := by
    rw [Compiled.flow, Sequence.Fragment.finish_work, hlayout.user_eq]
    exact List.mem_append_right _ (mem_plainOf.mpr ht)
  obtain ⟨w, hw, hwt⟩ := List.mem_filterMap.mp hwork
  obtain ⟨s, hs, hws⟩ := List.mem_flatMap.mp hw
  have harms := h.stepless c hc
  simp only [Compiled.runner, Sequence.runner, Sequence.loop, Statement.hasScriptStep,
    Statement.anyNode, anyNodeOf, Statement.isScriptStep, Bool.false_or, Bool.or_false,
    anyNodeOfArms_eq_any, List.any_eq_false, anyNodeOf_eq_any] at harms
  obtain ⟨n, hn⟩ := List.getElem?_of_mem hs
  have harm : Arm.mk (some ⟨_, .integer n⟩) (s.statements c.control)
      ∈ c.flow.arms c.control :=
    List.mem_map.mpr ⟨(s, n), List.mk_mem_zipIdx_iff_getElem?.mpr hn, rfl⟩
  have hbody := harms _ harm
  rw [Bool.not_eq_true, List.any_eq_false] at hbody
  have hplaced : t ∈ s.statements c.control := by
    refine List.mem_append_left _ (List.mem_map.mpr ⟨w, hws, ?_⟩)
    cases w with
    | placed u => exact Option.some.inj hwt
    | counting _ => cases hwt
  exact Bool.eq_false_iff.mpr (hbody t hplaced)

/-- **The waits of a hosted script**, at any depth, are its signals. -/
theorem anyNodeOf_eq {c : Compiled} (hc : c ∈ cs) (text : String) :
    anyNodeOf (Statement.awaitsText text) c.script = c.waitsFor text :=
  (h.layout c hc _ (Sequence.agrees_numberIn ho)).anyNodeOf_eq
    (fun _ => h.stepless_plain ho hc) text

end Module.Hosts

end Stimulus
