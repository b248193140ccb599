import Stimulus.Proofs.Rounding.Expression
import Stimulus.Statement.Text

/-!
# Calls in statements

The text of a statement calls the rounding function exactly if a node of its tree does. The
induction follows the layout: every line ends in a line feed, which keeps it apart from the next
one, and the lines of a block are those of its head and of its children.

## Main results

* `closed_block`: a block calls the function if its head or one of its children does.
* `Statement.closed_render`: the text of a statement.
-/

namespace Stimulus

variable {b c : Bool} {s t : String}

/-! ### Layout -/

namespace Layout

/-- The blanks in front of a line mention nothing. -/
theorem closed_indent (depth : Nat) : Closed false (indent depth) := by
  have hblank {x : Char} (hx : x ∈ (indent depth).toList) : x = ' ' := by
    rw [indent, String.toList_ofList] at hx
    exact (List.mem_replicate.mp hx).2
  refine ⟨rounds_of_notMem fun h => absurd (hblank h) (by decide), fun x hx => ?_⟩
  rw [hblank (List.mem_of_getLast? hx)]
  decide

/-- A line calls the function if its text does. -/
theorem closed_line (depth : Nat) (h : Rounds b t) : Closed b (line depth t) :=
  (((closed_indent depth).append h).gap (gap_of (by decide))).of_eq (Bool.false_or b)

/-- **A block** calls the function if its head or one of its children does. -/
theorem closed_block (depth : Nat) (force : Bool) {children : List String} (h : Rounds b t)
    (hchildren : Each Closed c children) : Closed (b || c) (block depth force t children) := by
  have hbegin : Rounds b (t ++ " begin") :=
    h.append_quiet (rounds_of_notMem (by decide)) (.inr (by decide))
  have hend : Closed false (line depth "end") := closed_line depth (rounds_of_notMem (by decide))
  unfold block
  split
  · cases hchildren
    rw [Bool.or_false]
    exact closed_line depth (h.gap (gap_of (by decide))).toRounds
  case h_2 child =>
      obtain - | ⟨hchild, hnil⟩ := hchildren
      cases hnil
      rw [Bool.or_false]
      split
      · exact (((closed_line depth hbegin).append_closed hchild).append_closed hend).of_eq
          (Bool.or_false _)
      · exact (closed_line depth h).append_closed hchild
  · exact (((closed_line depth hbegin).append_closed hchildren.join).append_closed hend).of_eq
      (Bool.or_false _)

end Layout

/-! ### Heads and script steps -/

/-- The text of a head calls the function exactly if the head does. -/
theorem Head.rounds_text (x : Head) (h : ∀ t ∈ x.texts, ¬ Mentions t) :
    Rounds x.needsRounding x.text := by
  cases x with
  | raw text => exact rounds_false_iff.mpr (h text (by simp [texts]))
  | onEvent event =>
      have hopen : Closed false "@( " := closed_of (by decide)
      exact ((hopen.append (event.rounds_text h)).gap gap_close).toRounds.of_eq (Bool.false_or _)
  | repeatLoop count =>
      have hopen : Closed false "repeat( " := closed_of (by decide)
      exact ((hopen.append (count.rounds_text h)).gap gap_close).toRounds.of_eq (Bool.false_or _)
  | whileLoop condition =>
      have hopen : Closed false "while( " := closed_of (by decide)
      exact ((hopen.append (condition.rounds_text h)).gap gap_close).toRounds.of_eq
        (Bool.false_or _)
  | forLoop start condition next =>
      simp only [texts, List.forall_mem_append] at h
      obtain ⟨⟨hstart, hcondition⟩, hnext⟩ := h
      have hopen : Closed false "for( " := closed_of (by decide)
      have hsemicolon : Gap "; " := gap_of (by decide)
      have hs := (hopen.append (start.rounds_text hstart)).gap hsemicolon
      have hc := (hs.append (condition.rounds_text hcondition)).gap hsemicolon
      exact ((hc.append (next.rounds_text hnext)).gap gap_close).toRounds

/-- The text of a script step calls the function exactly if the step does. -/
theorem ScriptStep.closed_render (depth : Nat) (x : ScriptStep)
    (h : ∀ t ∈ x.texts, ¬ Mentions t) : Closed x.needsRounding (x.render depth) := by
  cases x with
  | delay microseconds =>
      have hopen : Closed false "// wait " := closed_of (by decide)
      have hdelay := hopen.append (microseconds.rounds_text h)
      refine Layout.closed_line depth ?_
      exact hdelay.append_quiet (rounds_of_notMem (by decide)) (.inr (by decide))
  | signal event =>
      have hopen : Closed false "// wait for " := closed_of (by decide)
      exact Layout.closed_line depth (hopen.append (event.rounds_text h))
  | mark state label =>
      have htoggle : Rounds false state.toggle.text := state.toggle.rounds_text h
      exact Layout.closed_line depth (htoggle.gap (gap_of (by decide))).toRounds

/-- The text in front of an arm calls the function exactly if its label does. -/
theorem rounds_armHeader (label : Option Value)
    (h : ∀ t ∈ label.toList.flatMap (·.texts), ¬ Mentions t) :
    Rounds (label.any (·.needsRounding)) (armHeader label) := by
  cases label with
  | none => exact rounds_of_notMem (by decide)
  | some v =>
      have hv := v.rounds_text fun t ht => h t (by simpa using ht)
      exact (hv.gap (gap_of (by decide))).toRounds

/-! ### Statements -/

mutual

/-- A statement of which no leaf is left does not call the function. -/
theorem Statement.needsRounding_of_leaves : (s : Statement) → s.leaves = [] →
    s.needsRounding = false
  | .list items, h => by
    rw [Statement.needsRounding, Statement.anyNode, Statement.nodeNeedsRounding, Bool.false_or]
    exact needsRoundingOf_of_leaves items h
  | .command _, h | .block _ _, h | .branch _ _ _, h | .select _ _, h | .step _, h => by
    simp [Statement.leaves] at h

/-- Statements of which no leaf is left do not call the function. -/
theorem needsRoundingOf_of_leaves : (items : List Statement) → leavesOf items = [] →
    anyNodeOf Statement.nodeNeedsRounding items = false
  | [], _ => rfl
  | s :: rest, h => by
    obtain ⟨hs, hrest⟩ := List.append_eq_nil_iff.mp h
    rw [anyNodeOf, needsRoundingOf_of_leaves rest hrest, Bool.or_false]
    exact s.needsRounding_of_leaves hs

end

mutual

/-- **The text of a statement** calls the rounding function exactly if the tree does. -/
theorem Statement.closed_render : (s : Statement) → (depth : Nat) →
    (∀ t ∈ s.texts, ¬ Mentions t) → Closed s.needsRounding (s.render depth)
  | .command x, depth, h =>
    Layout.closed_line depth ((x.rounds_text h).gap (gap_of (by decide))).toRounds
  | .step x, depth, h => x.closed_render depth h
  | .list items, depth, h => (each_renderEach items depth h).join.of_eq (Bool.false_or _).symm
  | .block head body, depth, h => by
    rw [Statement.texts, List.forall_mem_append] at h
    exact Layout.closed_block depth false (head.rounds_text h.1)
      (each_renderEach body (depth + 1) h.2)
  | .branch condition yes no, depth, h => by
    rw [Statement.texts, List.forall_mem_append, List.forall_mem_append] at h
    obtain ⟨⟨hcondition, hyes⟩, hno⟩ := h
    have hopen : Closed false "if( " := closed_of (by decide)
    have hheader := ((hopen.append (condition.rounds_text hcondition)).gap gap_close).toRounds
    have hotherwise := each_renderEach no (depth + 1) hno
    have halternative : Closed (anyNodeOf Statement.nodeNeedsRounding no)
        (if (renderEach (depth + 1) no).isEmpty then ""
          else Layout.block depth false "else" (renderEach (depth + 1) no)) := by
      split
      case isTrue hempty =>
          rw [List.isEmpty_iff.mp hempty] at hotherwise
          exact hotherwise.join
      case isFalse =>
          have helse : Rounds false "else" := rounds_of_notMem (by decide)
          exact (Layout.closed_block depth false helse hotherwise).of_eq (Bool.false_or _)
    have hblock := fun force => Layout.closed_block depth force hheader
      (each_renderEach yes (depth + 1) hyes)
    rw [Statement.render]
    exact (hblock _).append_closed halternative
  | .select scrutinee arms, depth, h => by
    rw [Statement.texts, List.forall_mem_append] at h
    have hopen : Closed false "case( " := closed_of (by decide)
    have hheader := ((hopen.append (scrutinee.rounds_text h.1)).gap gap_close).toRounds
    have hend : Closed false (Layout.line depth "endcase") :=
      Layout.closed_line depth (rounds_of_notMem (by decide))
    refine (((Layout.closed_line depth hheader).append_closed
      (closed_renderArms arms (depth + 1) h.2)).append_closed hend).of_eq ?_
    rw [Bool.false_or, Bool.or_false, ← Bool.or_assoc]
    rfl

/-- The texts of statements, one by one. -/
theorem each_renderEach : (items : List Statement) → (depth : Nat) →
    (∀ t ∈ textsOf items, ¬ Mentions t) →
    Each Closed (anyNodeOf Statement.nodeNeedsRounding items) (renderEach depth items)
  | [], _, _ => .nil
  | s :: rest, depth, h => by
    rw [textsOf, List.forall_mem_append] at h
    have hrest := each_renderEach rest depth h.2
    rw [renderEach]
    split
    case isTrue hempty =>
        have hs := s.needsRounding_of_leaves (List.isEmpty_iff.mp hempty)
        refine hrest.of_eq ?_
        rw [anyNodeOf, ← Statement.needsRounding, hs, Bool.false_or]
    case isFalse => exact .cons (s.closed_render depth h.1) hrest

/-- The text of the arms of a case calls the function exactly if a label or a statement does. -/
theorem closed_renderArms : (arms : List Arm) → (depth : Nat) →
    (∀ t ∈ textsOfArms arms, ¬ Mentions t) →
    Closed ((arms.any fun arm => arm.label.any (·.needsRounding))
      || anyNodeOfArms Statement.nodeNeedsRounding arms) (renderArms depth arms)
  | [], _, _ => closed_of (t := "") (by decide)
  | .mk label body :: rest, depth, h => by
    rw [textsOfArms, List.forall_mem_append, List.forall_mem_append] at h
    obtain ⟨⟨hlabel, hbody⟩, hrest⟩ := h
    have harm := Layout.closed_block depth false (rounds_armHeader label hlabel)
      (each_renderEach body (depth + 1) hbody)
    refine (harm.append_closed (closed_renderArms rest depth hrest)).of_eq ?_
    rw [List.any_cons, anyNodeOfArms]
    ac_rfl

end

end Stimulus
