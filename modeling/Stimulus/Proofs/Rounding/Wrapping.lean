import Stimulus.Module.Text
import Stimulus.Proofs.Rounding.Mention

/-!
# Calls in wrapped lines

Before a text is emitted it is taken apart into lines, the lines are wrapped, and the results are
put together again. None of this makes a mention of the rounding function out of anything else: line
ends, commas and blanks are in no name, and they are all that is removed or inserted.

## Main results

* `Text.onlyCalls_softWrap`: a line whose mentions are calls is wrapped into one of that kind.
* `Text.onlyCalls_wrapLines`: the same for a text that is wrapped line by line.
* `Module.emit?_eq`: what is emitted are the wrapped lines of the parts of a module.
-/

namespace Stimulus

/-! ### Separators -/

/-- A character that is in no name and does not start the arguments of a call. -/
def Separates (c : Char) : Prop :=
  Name.isRest c = false ∧ c ≠ '('

instance (c : Char) : Decidable (Separates c) :=
  inferInstanceAs (Decidable (Name.isRest c = false ∧ c ≠ '('))

/-- **Mentions are calls** on both sides of a separator if they are in the whole text. -/
theorem onlyCalls_append_cons {c : Char} (hc : Separates c) {s t : List Char} :
    OnlyCalls (s ++ c :: t) ↔ OnlyCalls s ∧ OnlyCalls t := by
  have hleft : ApartLeft (c :: t) := by
    rintro x hx
    obtain rfl := Option.some.inj hx
    exact hc.1
  have hright : ApartRight [c] := hleft
  constructor
  · refine fun h => ⟨fun before after hat => ?_, fun before after hat => ?_⟩
    · obtain ⟨rest, heq⟩ := h _ _ ((mentionsAt_append (.inr hleft)).mpr (.inl ⟨after, rfl, hat⟩))
      cases after with
      | nil =>
          injection heq with hparen
          exact absurd hparen hc.2
      | cons x after =>
          injection heq with hparen
          exact ⟨after, by rw [hparen]⟩
    · have hat : MentionsAt ([c] ++ before) after ([c] ++ t) :=
        (mentionsAt_append (.inl hright)).mpr (.inr ⟨before, rfl, hat⟩)
      exact h _ _ ((mentionsAt_append (.inr hleft)).mpr (.inr ⟨_, rfl, hat⟩))
  · rintro ⟨hs, ht⟩
    have hsingle : OnlyCalls [c] := onlyCalls_of_length (by simp)
    exact hs.append (hsingle.append ht (.inl hright)) (.inr hleft)

/-- Separators in front of a text make no difference. -/
theorem onlyCalls_separators {k t : List Char} (hk : ∀ c ∈ k, Separates c) :
    OnlyCalls (k ++ t) ↔ OnlyCalls t := by
  induction k with
  | nil => rfl
  | cons c k ih =>
      have hc := onlyCalls_append_cons (s := []) (t := k ++ t) (hk c List.mem_cons_self)
      rw [List.nil_append] at hc
      rw [List.cons_append, hc, ih fun x hx => hk x (List.mem_cons_of_mem _ hx)]
      exact and_iff_right (onlyCalls_of_length (by decide))

/-- Blanks separate. -/
theorem separates_of_isBlank {c : Char} (h : Text.isBlank c = true) : Separates c := by
  refine ⟨Text.isRest_of_isBlank h, ?_⟩
  rintro rfl
  exact absurd h (by decide)

/-! ### Wrapped lines -/

namespace Text

/-- A break is due only after a comma. -/
theorem Wrap.eq_comma_of_due {m : Wrap.Margin} {s : Wrap.State} {c : Char}
    (h : (s.next m c).due = true) : c = ',' := by
  simp only [Wrap.State.next, Bool.and_eq_true, beq_iff_eq] at h
  exact h.1.1.1

/-- A line without commas stays as it is. -/
theorem Wrap.go_eq {m : Wrap.Margin} {s : Wrap.State} {l : List Char} (hs : s.due = false)
    (h : ',' ∉ l) : Wrap.go m s l = l := by
  induction l generalizing s with
  | nil => rfl
  | cons c l ih =>
      rw [List.mem_cons, not_or] at h
      have hnext : (s.next m c).due = false := by
        rw [Bool.eq_false_iff]
        exact fun hdue => h.1 (Wrap.eq_comma_of_due hdue).symm
      rw [Wrap.go, if_neg (by simp [hs]), ih hnext h.2]

/-- A line without commas is not broken. -/
theorem softWrap_eq {column : Nat} {line : String} (h : ',' ∉ line.toList) :
    softWrap column line = line := by
  unfold softWrap
  split
  · rfl
  · dsimp only
    rw [Wrap.go_eq rfl h, String.ofList_toList]

/-- Breaks make no mentions. In front of the scanner stands text that has been copied, unless a
break is due: then a comma has been copied, which keeps apart what follows. -/
theorem Wrap.onlyCalls_go {m : Wrap.Margin} (hm : ∀ c ∈ m.continuation, Separates c)
    (l : List Char) :
    (∀ (s : Wrap.State) (front : List Char), s.due = false → OnlyCalls (front ++ l) →
      OnlyCalls (front ++ Wrap.go m s l)) ∧
    ∀ s : Wrap.State, s.due = true → OnlyCalls l → OnlyCalls (Wrap.go m s l) := by
  have hcomma : Separates ',' := by decide
  have hfeed : Separates '\n' := by decide
  induction l with
  | nil => exact ⟨fun s front _ h => h, fun s _ h => h⟩
  | cons c l ih =>
      have hcopy (s : Wrap.State) (front : List Char) (hs : s.due = false)
          (h : OnlyCalls (front ++ c :: l)) :
          OnlyCalls (front ++ c :: Wrap.go m (s.next m c) l) := by
        cases hdue : (s.next m c).due with
        | false =>
            have := ih.1 (s.next m c) (front ++ [c]) hdue (by simpa using h)
            simpa using this
        | true =>
            obtain rfl := Wrap.eq_comma_of_due hdue
            rw [onlyCalls_append_cons hcomma] at h ⊢
            exact ⟨h.1, ih.2 _ hdue h.2⟩
      refine ⟨fun s front hs h => ?_, fun s hs h => ?_⟩
      · rw [Wrap.go, if_neg (by simp [hs])]
        exact hcopy s front hs h
      · rw [Wrap.go, if_pos hs]
        split
        case isTrue hblank =>
            have hc : Separates c := by
              rw [beq_iff_eq.mp hblank]
              decide
            have := (onlyCalls_append_cons (s := []) hc).mp h
            exact ih.2 s hs this.2
        case isFalse =>
            have hbreak : ∀ x ∈ '\n' :: m.continuation, Separates x := by
              rintro x (_ | ⟨_, hx⟩)
              · exact hfeed
              · exact hm x hx
            rw [onlyCalls_separators hbreak]
            exact hcopy (s.broken m) [] rfl h

/-- **A wrapped line** has only calls if the line has only calls. -/
theorem onlyCalls_softWrap {line : String} (column : Nat) (h : OnlyCalls line.toList) :
    OnlyCalls (softWrap column line).toList := by
  unfold softWrap
  split
  · exact h
  · rw [String.toList_ofList]
    refine (Wrap.onlyCalls_go (fun c hc => ?_) line.toList).1 .start [] rfl h
    rcases List.mem_append.mp hc with hc | hc
    · exact separates_of_isBlank (List.all_eq_true.mp List.all_takeWhile c hc)
    · rw [(List.mem_replicate.mp hc).2]
      decide

/-! ### Lines -/

/-- The line at the end of which a text is cut has only calls if the text has. -/
theorem onlyCalls_endLine {before : List Char} (h : OnlyCalls before.reverse) :
    OnlyCalls (endLine before) := by
  unfold endLine
  split
  case h_1 before =>
      rw [List.reverse_cons] at h
      exact ((onlyCalls_append_cons (by decide)).mp h).1
  case h_2 => exact h

/-- The lines of a text have only calls if the text has. -/
theorem onlyCalls_linesAfter (before text : List Char) (h : OnlyCalls (before.reverse ++ text)) :
    ∀ line ∈ linesAfter before text, OnlyCalls line := by
  induction text generalizing before with
  | nil =>
      rw [linesAfter]
      split
      · simp
      · intro line hline
        obtain rfl := List.mem_singleton.mp hline
        rwa [List.append_nil] at h
  | cons c text ih =>
      rw [linesAfter]
      split
      case isTrue hc =>
          subst hc
          obtain ⟨hbefore, htext⟩ := (onlyCalls_append_cons (by decide)).mp h
          intro line hline
          rcases List.mem_cons.mp hline with rfl | hline
          · exact onlyCalls_endLine hbefore
          · exact ih [] htext line hline
      case isFalse =>
          refine ih _ ?_
          rw [List.reverse_cons, List.append_assoc]
          exact h

/-- The lines of a text have only calls if the text has. -/
theorem onlyCalls_lines {text : String} (h : OnlyCalls text.toList) :
    ∀ line ∈ lines text, OnlyCalls line.toList := by
  intro line hline
  obtain ⟨l, hl, rfl⟩ := List.mem_map.mp hline
  rw [String.toList_ofList]
  exact onlyCalls_linesAfter [] _ h l hl

/-- The lines of a text that goes on after a line feed. -/
theorem linesAfter_append (before s t : List Char) :
    linesAfter before (s ++ '\n' :: t) = linesAfter before (s ++ ['\n']) ++ linesAfter [] t := by
  induction s generalizing before with
  | nil => simp [linesAfter]
  | cons c s ih =>
      simp only [List.cons_append, linesAfter]
      split
      · rw [ih, List.cons_append]
      · exact ih _

/-- The lines of two texts, the first of which ends in a line feed. -/
theorem lines_append {s t : String} (h : s.toList.getLast? = some '\n') :
    lines (s ++ t) = lines s ++ lines t := by
  obtain ⟨l, hl⟩ := List.getLast?_eq_some_iff.mp h
  unfold lines
  rw [String.toList_append, hl, List.append_assoc, List.singleton_append, linesAfter_append,
    List.map_append]

/-- The characters of the lines of a text are characters of the text. -/
theorem mem_of_mem_linesAfter (before text : List Char) :
    ∀ line ∈ linesAfter before text, ∀ c ∈ line, c ∈ before ∨ c ∈ text := by
  have hend (before : List Char) : ∀ c ∈ endLine before, c ∈ before := by
    unfold endLine
    split
    · exact fun c hc => List.mem_cons_of_mem _ (List.mem_reverse.mp hc)
    · exact fun c hc => List.mem_reverse.mp hc
  induction text generalizing before with
  | nil =>
      rw [linesAfter]
      split
      · exact List.forall_mem_nil _
      · exact List.forall_mem_singleton.mpr fun c hc => .inl (List.mem_reverse.mp hc)
  | cons d text ih =>
      rw [linesAfter]
      split
      · refine List.forall_mem_cons.mpr ⟨fun c hc => .inl (hend before c hc), ?_⟩
        intro line hline c hc
        exact .inr (List.mem_cons_of_mem _ ((ih [] line hline c hc).resolve_left List.not_mem_nil))
      · intro line hline c hc
        rcases ih _ line hline c hc with h | h
        · rcases List.mem_cons.mp h with rfl | h
          · exact .inr List.mem_cons_self
          · exact .inl h
        · exact .inr (List.mem_cons_of_mem _ h)

/-- The characters of the lines of a text are characters of the text. -/
theorem mem_of_mem_lines {text line : String} (hline : line ∈ lines text) {c : Char}
    (hc : c ∈ line.toList) : c ∈ text.toList := by
  obtain ⟨l, hl, rfl⟩ := List.mem_map.mp hline
  rw [String.toList_ofList] at hc
  exact (mem_of_mem_linesAfter [] _ l hl c hc).resolve_left List.not_mem_nil

/-- A line that does not end in a carriage return is cut at its end. -/
theorem endLine_eq {before : List Char} (h : '\r' ∉ before) : endLine before = before.reverse := by
  unfold endLine
  split
  · exact absurd List.mem_cons_self h
  · rfl

/-- The lines of a text without carriage returns make up the text, if it ends in a line feed. -/
theorem join_lines {text : String} (hreturn : '\r' ∉ text.toList)
    (hends : text.toList.getLast? = some '\n') :
    String.join ((lines text).map (· ++ "\n")) = text := by
  have hafter (before front : List Char) (hbefore : '\r' ∉ before) (hfront : '\r' ∉ front) :
      (String.join
        ((linesAfter before (front ++ ['\n'])).map fun l => String.ofList l ++ "\n")).toList
          = before.reverse ++ front ++ ['\n'] := by
    induction front generalizing before with
    | nil =>
        simp [linesAfter, endLine_eq hbefore]
    | cons c front ih =>
        rw [List.mem_cons, not_or] at hfront
        rw [List.cons_append, linesAfter]
        split
        case isTrue hc =>
            rw [List.map_cons, String.join_cons, String.toList_append,
              ih [] List.not_mem_nil hfront.2]
            simp [endLine_eq hbefore, hc]
        case isFalse =>
            rw [ih (c :: before) (by simp [hbefore, hfront.1]) hfront.2]
            simp
  obtain ⟨front, hfront⟩ := List.getLast?_eq_some_iff.mp hends
  refine String.toList_inj.mp ?_
  rw [lines, List.map_map, hfront]
  exact hafter [] front List.not_mem_nil fun h => hreturn (by simp [hfront, h])

/-- A text that is not empty has lines. -/
theorem lines_ne_nil {text : String} (h : text.toList ≠ []) : lines text ≠ [] := by
  have hafter (before l : List Char) (hl : before ≠ [] ∨ l ≠ []) : linesAfter before l ≠ [] := by
    induction l generalizing before with
    | nil =>
        have hbefore : before ≠ [] := hl.resolve_right (absurd rfl)
        rw [linesAfter, if_neg (by simpa using hbefore)]
        exact List.cons_ne_nil _ _
    | cons c l ih =>
        rw [linesAfter]
        split
        · exact List.cons_ne_nil _ _
        · exact ih _ (.inl (List.cons_ne_nil _ _))
  exact fun hnil => hafter [] _ (.inr h) (List.map_eq_nil_iff.mp hnil)

/-! ### Emitted texts -/

/-- The wrapped lines of a text, each of which ends in a line feed. -/
def wrapLines (column : Nat) (text : String) : String :=
  String.join ((lines text).map fun line => softWrap column line ++ "\n")

/-- Two texts, the first of which ends in a line feed, are wrapped one after the other. -/
theorem wrapLines_append {s t : String} (column : Nat) (h : s.toList.getLast? = some '\n') :
    wrapLines column (s ++ t) = wrapLines column s ++ wrapLines column t := by
  rw [wrapLines, lines_append h, List.map_append, String.join_append]
  rfl

/-- A text that is not empty ends in a line feed when it has been wrapped. -/
theorem getLast?_wrapLines {text : String} (column : Nat) (h : text.toList ≠ []) :
    (wrapLines column text).toList.getLast? = some '\n' := by
  unfold wrapLines
  rcases List.eq_nil_or_concat (lines text) with hnil | ⟨front, line, hlines⟩
  · exact absurd hnil (lines_ne_nil h)
  · simp [hlines, String.join_append]

/-- A text without commas and carriage returns is not changed by wrapping, if it ends in a line
feed. -/
theorem wrapLines_eq {text : String} (column : Nat) (hcomma : ',' ∉ text.toList)
    (hreturn : '\r' ∉ text.toList) (hends : text.toList.getLast? = some '\n') :
    wrapLines column text = text := by
  have hlines : (lines text).map (fun line => softWrap column line ++ "\n")
      = (lines text).map (· ++ "\n") :=
    List.map_congr_left fun line hline => by
      rw [softWrap_eq fun h => hcomma (mem_of_mem_lines hline h)]
  rw [wrapLines, hlines, join_lines hreturn hends]

/-- **A text that is wrapped** line by line has only calls if the text has. -/
theorem onlyCalls_wrapLines {text : String} (column : Nat) (h : OnlyCalls text.toList) :
    OnlyCalls (wrapLines column text).toList := by
  have hfeed : Separates '\n' := by decide
  have hlines := onlyCalls_lines h
  unfold wrapLines
  generalize lines text = ls at hlines
  induction ls with
  | nil => exact onlyCalls_of_length (by simp)
  | cons line rest ih =>
      rw [List.forall_mem_cons] at hlines
      have hsplit : (String.join ((line :: rest).map fun l => softWrap column l ++ "\n")).toList
          = (softWrap column line).toList
            ++ '\n' :: (String.join (rest.map fun l => softWrap column l ++ "\n")).toList := by
        simp
      rw [hsplit, onlyCalls_append_cons hfeed]
      exact ⟨onlyCalls_softWrap column hlines.1, ih hlines.2⟩

/-- Lines with line feeds between them and one at the end. -/
theorem intercalate_append_eq_join {ls : List String} (h : ls ≠ []) :
    String.intercalate "\n" ls ++ "\n" = String.join (ls.map (· ++ "\n")) := by
  induction ls with
  | nil => exact absurd rfl h
  | cons line rest ih =>
      cases rest with
      | nil => simp
      | cons next rest =>
          rw [String.intercalate_cons_cons, String.append_assoc, ih (List.cons_ne_nil _ _),
            List.map_cons, String.join_cons, List.map_cons, String.join_cons, List.map_cons,
            String.join_cons]

end Text

/-! ### Texts that wrapping leaves alone -/

/-- Text that wrapping leaves alone: there is no place for a break in it, and its last line is
ended. -/
structure Settled (t : String) : Prop where
  unbroken : ∀ c ∈ t.toList, c ≠ ',' ∧ c ≠ '\r'
  ended : ∀ c ∈ t.toList.getLast?, c = '\n'

/-- Settled texts in a row. -/
theorem Settled.append {s t : String} (hs : Settled s) (ht : Settled t) : Settled (s ++ t) where
  unbroken := by
    rw [String.toList_append, List.forall_mem_append]
    exact ⟨hs.unbroken, ht.unbroken⟩
  ended := by
    intro c hc
    rw [String.toList_append, List.getLast?_append] at hc
    cases ht' : t.toList.getLast? with
    | none =>
        rw [ht', Option.none_or] at hc
        exact hs.ended c hc
    | some d =>
        rw [ht', Option.some_or] at hc
        obtain rfl := Option.some.inj hc
        exact ht.ended _ ht'

/-- Any number of settled texts in a row. -/
theorem settled_join {ts : List String} (h : ∀ t ∈ ts, Settled t) : Settled (String.join ts) := by
  induction ts with
  | nil => exact ⟨by simp, by simp⟩
  | cons t ts ih =>
      rw [List.forall_mem_cons] at h
      rw [String.join_cons]
      exact h.1.append (ih h.2)

/-- Settled text that is not empty ends in a line feed. -/
theorem Settled.getLast?_eq {t : String} (h : Settled t) (hne : t.toList ≠ []) :
    t.toList.getLast? = some '\n' := by
  have hlast := List.getLast?_eq_some_getLast hne
  rw [hlast, h.ended _ hlast]

/-- Wrapping leaves settled text alone. -/
theorem Settled.wrapLines_eq {t : String} (h : Settled t) (hne : t.toList ≠ []) (column : Nat) :
    Text.wrapLines column t = t :=
  Text.wrapLines_eq column (fun hc => (h.unbroken _ hc).1 rfl)
    (fun hc => (h.unbroken _ hc).2 rfl) (h.getLast?_eq hne)

/-! ### Modules -/

/-- **What is emitted** are the wrapped lines of the parts. -/
theorem Module.emit?_eq {m : Module} (h : m.fault = none) :
    m.emit? = .ok (Text.wrapLines m.options.wrapColumn m.parts) := by
  have hparts : m.parts.toList ≠ [] := by
    simp [parts, headerPart, Text.rule]
  have hlines : (Text.lines m.parts).map (Text.softWrap m.options.wrapColumn) ≠ [] := by
    simpa using Text.lines_ne_nil hparts
  unfold emit?
  rw [h]
  dsimp only
  rw [Text.intercalate_append_eq_join hlines, List.map_map]
  rfl

end Stimulus
