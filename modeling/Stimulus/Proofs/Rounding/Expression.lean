import Stimulus.Proofs.Rounding.Given
import Stimulus.Proofs.Rounding.Mention

/-!
# Calls in expressions, events and commands

The text of an expression calls the rounding function exactly if a node of the tree does, provided
that no text in the tree mentions the function. The same holds of events and of commands.

## Main results

* `not_mentions_quote`: string literals mention what their texts mention.
* `Expr.rounds_text`, `Event.rounds_text`, `Command.rounds_text`
-/

namespace Stimulus

variable {b c : Bool} {s t : String}

/-! ### Numbers -/

/-- A natural is written without underscores. -/
theorem notMem_toString (n : Nat) : '_' ∉ (toString n).toList := by
  simp

/-- An integer is written without underscores. -/
theorem Literal.notMem_integer (n : Int) : '_' ∉ (Literal.integer n).toList := by
  cases n with
  | ofNat n => exact notMem_toString n
  | negSucc n =>
      have h : Literal.integer (.negSucc n) = "-" ++ toString (n + 1) := rfl
      rw [h, String.toList_append, List.mem_append]
      rintro (h | h)
      · exact absurd h (by decide)
      · exact notMem_toString _ h

/-- A natural with zeros in front of it is written without underscores. -/
theorem Scientific.notMem_padded (width n : Nat) : '_' ∉ (padded width n).toList := by
  unfold padded
  simp only [String.toList_append, String.toList_ofList, List.mem_append, List.mem_replicate]
  rintro (⟨-, h⟩ | h)
  · exact absurd h (by decide)
  · exact notMem_toString n h

/-- Scientific notation has no underscores. -/
theorem Scientific.notMem_text (layout : Layout) (x : Scientific) :
    '_' ∉ (x.text layout).toList := by
  unfold text
  simp only [String.toList_append, List.mem_append]
  rintro (((((h | h) | h) | h) | h) | h)
  · exact notMem_toString _ h
  · exact absurd h (by decide)
  · exact notMem_padded _ _ h
  · exact absurd h (by decide)
  · split at h
    · exact absurd h (by decide)
    · exact absurd h (by decide)
  · exact notMem_padded _ _ h

/-- A real is written without underscores. -/
theorem Literal.notMem_real (x : Float) : '_' ∉ (Literal.real x).toList := by
  unfold real ofBinary64
  split
  · decide
  · decide
  · decide
  · rw [String.toList_append, List.mem_append]
    rintro (h | h)
    · split at h
      · exact absurd h (by decide)
      · exact absurd h (by decide)
    · exact Scientific.notMem_text _ _ h

/-! ### String literals -/

/-- A character that the name of the rounding function does not start with is in front of every
mention. -/
theorem MentionsAt.of_cons {d : Char} {before after text : List Char} (hd : d ≠ '_')
    (h : MentionsAt before after (d :: text)) : ∃ rest, MentionsAt rest after text := by
  obtain ⟨heq, hstarts, hends⟩ := h
  cases before with
  | nil =>
      injection heq with h
      exact absurd h hd
  | cons e before =>
      injection heq with _ htext
      refine ⟨before, htext, fun x hx => hstarts x ?_, hends⟩
      rw [List.getLast?_cons, Option.mem_def.mp hx]
      rfl

/-- A character that is escaped is in no name, and no mention starts with what stands for it. -/
theorem isRest_of_mem_escapes :
    ∀ x ∈ Text.escapes, Name.isRest x.1 = false ∧ x.2 ≠ '_' := by
  decide

/-- What is mentioned in a text whose end has been escaped is mentioned in the text itself. -/
theorem mentionsAt_of_escape (text front : List Char) {before after : List Char}
    (h : MentionsAt before after (front ++ text.flatMap Text.escape)) :
    ∃ before' after', MentionsAt before' after' (front ++ text) := by
  induction text generalizing front before after with
  | nil => exact ⟨before, after, h⟩
  | cons c text ih =>
      rw [List.flatMap_cons] at h
      rcases Text.escape_cases c with ⟨hc, -⟩ | ⟨d, hd, hescape⟩
      · rw [hc, ← List.append_assoc] at h
        obtain ⟨before', after', h⟩ := ih _ h
        exact ⟨before', after', by rwa [List.append_assoc] at h⟩
      · -- The joints in front of the escape and behind it are apart, so that a mention lies on one
        -- side of them; the escape itself is too short for one.
        obtain ⟨hc, hne⟩ := isRest_of_mem_escapes _ hd
        have hleft : ApartLeft (c :: text) := by
          rintro x hx
          obtain rfl := Option.some.inj hx
          exact hc
        have hslash : ApartLeft (['\\', d] ++ text.flatMap Text.escape) := by
          rintro x hx
          obtain rfl := Option.some.inj hx
          decide
        rw [hescape, mentionsAt_append (.inr hslash)] at h
        rcases h with ⟨rest, -, h⟩ | ⟨rest, -, h⟩
        · exact ⟨_, _, (mentionsAt_append (.inr hleft)).mpr (.inl ⟨rest, rfl, h⟩)⟩
        · obtain ⟨rest, h⟩ := h.of_cons (by decide)
          obtain ⟨rest, h⟩ := h.of_cons hne
          obtain ⟨before', after', h⟩ := ih [] h
          have hright : ApartRight [c] := hleft
          have h : MentionsAt ([c] ++ before') after' ([c] ++ text) :=
            (mentionsAt_append (.inl hright)).mpr (.inr ⟨before', rfl, h⟩)
          exact ⟨_, _, (mentionsAt_append (.inr hleft)).mpr (.inr ⟨_, rfl, h⟩)⟩

/-- **A string literal** mentions nothing if its text does not. -/
theorem not_mentions_quote (h : ¬ Mentions t) : ¬ Mentions (Text.quote t) := by
  rintro ⟨before, after, hat⟩
  rw [Text.quote, String.toList_ofList, List.cons_append] at hat
  obtain ⟨before, hat⟩ := hat.of_cons (by decide)
  rw [mentionsAt_append (.inr (by decide))] at hat
  rcases hat with ⟨rest, -, hat⟩ | ⟨rest, -, hat⟩
  · obtain ⟨before', after', hat⟩ := mentionsAt_of_escape t.toList [] hat
    exact h ⟨before', after', hat⟩
  · obtain ⟨rest, hat⟩ := hat.of_cons (by decide)
    have := congrArg List.length hat.text_eq
    rw [List.length_nil, List.length_append, List.length_append] at this
    exact absurd this (by rw [show Expr.roundName.toList.length = 5 from rfl]; omega)

/-- A string literal rounds if its text mentions nothing. -/
theorem rounds_quote (h : ¬ Mentions t) : Rounds false (Text.quote t) :=
  rounds_false_iff.mpr (not_mentions_quote h)

/-! ### Forms of expressions -/

/-- What stands in front of an operand. -/
theorem gap_open : Gap "( " :=
  gap_of (by decide)

/-- What stands behind an operand. -/
theorem gap_close : Gap " )" :=
  gap_of (by decide)

/-- What stands behind the arguments of a call. -/
theorem gap_end : Gap ")" :=
  gap_of (by decide)

/-- What stands between two arguments. -/
theorem gap_comma : Gap ", " :=
  gap_of (by decide)

/-- Parentheses around a text. -/
theorem Rounds.enclosed (h : Rounds b t) : Closed b ("( " ++ t ++ " )") :=
  (gap_open.append h).gap gap_close |>.of_eq b.false_or

/-- A binary operation calls the function if one of its operands does. -/
theorem rounds_binaryText {symbol : String} (hsymbol : Gap symbol) (hs : Rounds b s)
    (ht : Rounds c t) : Rounds (b || c) (Expr.binaryText symbol s t) := by
  have h := ((hs.enclosed.toRounds.gap hsymbol).toRounds.gap gap_open).append ht
  exact (h.gap gap_close).toRounds

/-- A unary operation calls the function if its operand does. -/
theorem rounds_unaryText {symbol : String} (hsymbol : Gap symbol) (h : Rounds b t) :
    Rounds b (Expr.unaryText symbol t) := by
  have h := (hsymbol.append_gap gap_open).append h
  exact (h.gap gap_close).toRounds.of_eq b.false_or

/-- A call by one of its arguments, or of the function itself. -/
theorem rounds_callText {function : String} {arguments : List String}
    (hf : Closed b (function ++ "(")) (h : Each Rounds c arguments) :
    Rounds (b || c) (Expr.callText function arguments) :=
  ((hf.append (h.intercalate gap_comma)).gap gap_end).toRounds

/-- A choice calls the function if one of its parts does. -/
theorem rounds_choiceText {d : Bool} {condition : String} (hcondition : Rounds b condition)
    (hs : Rounds c s) (ht : Rounds d t) : Rounds (b || c || d) (Expr.choiceText condition s t) := by
  have h := (hcondition.gap (k := " ? ( ") (gap_of (by decide))).append hs
  have h := (h.gap (k := " ) : ( ") (gap_of (by decide))).append ht
  exact (h.gap gap_close).toRounds

/-- Parentheses where they are needed make no difference. -/
theorem rounds_wrap (allowed : List Char) (h : Rounds b t) :
    Rounds b (Grouping.wrap allowed t) := by
  unfold Grouping.wrap
  split
  · exact h
  · exact h.enclosed.toRounds

/-! ### Expressions -/

/-- A net mentions what its name mentions. -/
theorem Net.rounds_name {n : Net} (h : ¬ Mentions n.given) : Rounds false n.name := by
  cases n with
  | scalar name => exact rounds_false_iff.mpr h
  | bit bus index =>
      have hbus := (rounds_false_iff.mpr h).gap (k := "[") (gap_of (by decide))
      have hindex := hbus.append (rounds_of_notMem (notMem_toString index))
      exact (hindex.gap (gap_of (by decide))).toRounds

/-- An access function mentions what the names of its nets mention. -/
theorem Branch.rounds_text {branch : Branch} (h : ∀ t ∈ branch.texts, ¬ Mentions t) :
    Rounds false branch.text := by
  obtain ⟨nature, positive, negative⟩ := branch
  have hpositive : Rounds false positive.name := Net.rounds_name (h _ (by simp [texts]))
  have hone (access : String) (haccess : Closed false (access ++ "(")) :
      Rounds false (access ++ "(" ++ positive.name ++ ")") :=
    ((haccess.append hpositive).gap gap_end).toRounds
  have htwo (access : String) (haccess : Closed false (access ++ "(")) (n : Net)
      (hn : Rounds false n.name) :
      Rounds false (access ++ "(" ++ positive.name ++ "," ++ n.name ++ ")") :=
    ((((haccess.append hpositive).gap (gap_of (by decide))).append hn).gap gap_end).toRounds
  have hpotential : Closed false ("V" ++ "(") := closed_of (by decide)
  have hflow : Closed false ("I" ++ "(") := closed_of (by decide)
  cases negative with
  | none =>
      cases nature with
      | potential => exact hone _ hpotential
      | flow => exact hone _ hflow
  | some negative =>
      have hnegative : Rounds false negative.name := Net.rounds_name (h _ (by simp [texts]))
      cases nature with
      | potential => exact htwo _ hpotential _ hnegative
      | flow => exact htwo _ hflow _ hnegative

/-- The names of analyses mention nothing. -/
theorem Analysis.rounds_arguments (types : List Analysis) :
    Rounds false (Analysis.arguments types) := by
  have h : Each Rounds (types.any fun _ => false) (types.map fun a => Text.quote a.name) := by
    refine Each.map fun a _ => rounds_of_notMem ?_
    cases a <;> decide
  exact (h.intercalate gap_comma).of_eq (by simp)

/-- An operator is a gap. -/
theorem Arithmetic.gap_symbol (op : Arithmetic) : Gap op.symbol := by
  cases op <;> exact gap_of (by decide)

/-- A comparison is a gap. -/
theorem Comparison.gap_symbol (op : Comparison) : Gap op.symbol := by
  cases op <;> exact gap_of (by decide)

/-- A connective is a gap. -/
theorem Connective.gap_symbol (op : Connective) : Gap op.symbol := by
  cases op <;> exact gap_of (by decide)

namespace Expr

/-- The rounding function is called by its name. -/
theorem closed_roundName : Closed true (roundName ++ "(") where
  onlyCalls := by
    rintro before after ⟨heq, -, -⟩
    cases before with
    | nil =>
        rw [String.toList_append, List.nil_append] at heq
        exact ⟨[], (List.append_cancel_left heq).symm⟩
    | cons x before =>
        have hlength := congrArg List.length heq
        have hname : roundName.toList.length = 5 := rfl
        simp only [String.toList_append, List.length_append, List.length_cons, hname] at hlength
        obtain rfl : before = [] := List.eq_nil_of_length_eq_zero (by simp at hlength; omega)
        obtain rfl : after = [] := List.eq_nil_of_length_eq_zero (by simp at hlength; omega)
        injection heq with _ htail
        exact absurd htail (by decide)
  calls_iff := by
    refine ⟨fun _ => ⟨[], ['('], rfl, by simp, ?_⟩, fun _ => rfl⟩
    rintro c hc
    obtain rfl := Option.some.inj hc
    decide
  right := by decide

/-- A function of one argument is called by its name. -/
theorem closed_unaryName (f : UnaryFunction) : Closed false (f.name ++ "(") := by
  cases f <;> exact closed_of (by decide)

/-- A function of two arguments is called by its name. -/
theorem closed_binaryName (f : BinaryFunction) : Closed false (f.name ++ "(") := by
  cases f <;> exact closed_of (by decide)

/-- The condition of a choice, with parentheses or without them. -/
theorem rounds_condition {c : Expr .bool} (h : Rounds c.needsRounding c.text) :
    Rounds c.needsRounding
      (if c.isConstant then c.text else Grouping.wrap Grouping.tighterThanChoice c.text) := by
  split
  · exact h
  · exact rounds_wrap _ h

/-- **The text of an expression** calls the rounding function exactly if the tree does. -/
theorem rounds_text {k : Kind} (e : Expr k) (h : ∀ t ∈ e.texts, ¬ Mentions t) :
    Rounds e.needsRounding e.text := by
  induction e with
  | raw text => exact rounds_false_iff.mpr (h text (by simp [texts]))
  | ident name => exact rounds_false_iff.mpr (h name (by simp [texts]))
  | real x => exact rounds_of_notMem (Literal.notMem_real x)
  | integer n => exact rounds_of_notMem (Literal.notMem_integer n)
  | bool x => cases x <;> exact rounds_of_notMem (by decide)
  | arith op defined lhs rhs ihl ihr =>
      simp only [texts, List.forall_mem_append] at h
      exact rounds_binaryText op.gap_symbol (ihl h.1) (ihr h.2)
  | compare op defined lhs rhs ihl ihr =>
      simp only [texts, List.forall_mem_append] at h
      exact rounds_binaryText op.gap_symbol (ihl h.1) (ihr h.2)
  | connect op lhs rhs ihl ihr =>
      simp only [texts, List.forall_mem_append] at h
      exact rounds_binaryText op.gap_symbol (ihl h.1) (ihr h.2)
  | neg numeric operand ih => exact rounds_unaryText (gap_of (by decide)) (ih h)
  | complement operand ih => exact rounds_unaryText (gap_of (by decide)) (ih h)
  | not operand ih => exact rounds_unaryText (gap_of (by decide)) (ih h)
  | abs numeric operand ih =>
      exact (rounds_callText (closed_of (by decide)) (.singleton (ih h))).of_eq (Bool.false_or _)
  | call f x ih =>
      exact (rounds_callText (closed_unaryName f) (.singleton (ih h))).of_eq (Bool.false_or _)
  | call₂ f x y ihx ihy =>
      simp only [texts, List.forall_mem_append] at h
      have harguments := Each.cons (ihx h.1) (.singleton (ihy h.2))
      exact (rounds_callText (closed_binaryName f) harguments).of_eq (Bool.false_or _)
  | slew x maxRise maxFall ihx ihr ihf =>
      simp only [texts, List.forall_mem_append] at h
      obtain ⟨⟨hx, hr⟩, hf⟩ := h
      have harguments := Each.cons (ihx hx) (.cons (ihr hr) (.singleton (ihf hf)))
      refine (rounds_callText (closed_of (by decide)) harguments).of_eq ?_
      rw [Bool.false_or, needsRounding, Bool.or_assoc]
  | transition x delay rise fall ihx ihd ihr ihf =>
      simp only [texts, List.forall_mem_append] at h
      obtain ⟨⟨⟨hx, hd⟩, hr⟩, hf⟩ := h
      have harguments :=
        Each.cons (ihx hx) (.cons (ihd hd) (.cons (ihr hr) (.singleton (ihf hf))))
      refine (rounds_callText (closed_of (by decide)) harguments).of_eq ?_
      rw [Bool.false_or, needsRounding, Bool.or_assoc, Bool.or_assoc]
  | power base exponent ihb ihe =>
      simp only [texts, List.forall_mem_append] at h
      have harguments := Each.cons (ihb h.1) (.singleton (ihe h.2))
      have hpow := rounds_callText (closed_of (t := "pow" ++ "(") (by decide)) harguments
      exact (rounds_callText closed_roundName (.singleton hpow)).of_eq (Bool.true_or _)
  | round x ih =>
      exact (rounds_callText closed_roundName (.singleton (ih h))).of_eq (Bool.true_or _)
  | ofInteger n ih => exact ih h
  | indicator condition ih =>
      have hone : Rounds false "1.0" := rounds_of_notMem (by decide)
      have hzero : Rounds false "0.0" := rounds_of_notMem (by decide)
      refine (rounds_choiceText (rounds_condition (ih h)) hone hzero).of_eq ?_
      rw [Bool.or_false, Bool.or_false, needsRounding]
  | select condition yes no ihc ihy ihn =>
      simp only [texts, List.forall_mem_append] at h
      obtain ⟨⟨hc, hy⟩, hn⟩ := h
      exact rounds_choiceText (rounds_condition (ihc hc)) (ihy hy) (ihn hn)
  | access branch => exact Branch.rounds_text h
  | environment quantity => cases quantity <;> exact rounds_of_notMem (by decide)
  | analysis types =>
      have hopen : Closed false "analysis(" := closed_of (by decide)
      exact ((hopen.append (Analysis.rounds_arguments types)).gap gap_end).toRounds
  | openFile path mode =>
      have hpath : Rounds false (Text.quote path) := rounds_quote (h path (by simp [texts]))
      cases mode with
      | none => exact rounds_callText (closed_of (by decide)) (.singleton hpath)
      | some mode =>
          have hmode : Rounds false (Text.quote mode) := rounds_quote (h mode (by simp [texts]))
          exact rounds_callText (closed_of (by decide)) (.cons hpath (.singleton hmode))

/-- Parentheses that depend on the place make no difference. -/
theorem rounds_textIn {k : Kind} (e : Expr k) (allowed : List Char)
    (h : ∀ t ∈ e.texts, ¬ Mentions t) : Rounds e.needsRounding (e.textIn allowed) := by
  unfold textIn
  split
  · exact e.rounds_text h
  · exact rounds_wrap allowed (e.rounds_text h)

end Expr

/-- The text of a value calls the rounding function exactly if the value does. -/
theorem Value.rounds_text (v : Value) (h : ∀ t ∈ v.texts, ¬ Mentions t) :
    Rounds v.needsRounding v.text :=
  v.expr.rounds_text h

/-! ### Events -/

namespace Crossing

variable {x : Crossing}

/-- The difference that an event watches calls the function if one of its sides does. -/
theorem rounds_difference (h : ∀ t ∈ x.texts, ¬ Mentions t) :
    Rounds (x.signal.needsRounding || x.threshold.needsRounding) x.difference := by
  simp only [texts, List.forall_mem_append] at h
  have hsignal := x.signal.rounds_textIn Grouping.minuend h.1.1
  have hthreshold := x.threshold.rounds_textIn Grouping.subtrahend h.1.2
  exact (hsignal.gap (k := " - ") (gap_of (by decide))).append hthreshold

/-- Tolerances call the function if one of them does. They are apart from what is in front. -/
theorem rounds_toleranceText (h : ∀ t ∈ x.texts, ¬ Mentions t) :
    Rounds (x.tolerances.toList.any (·.needsRounding)) x.toleranceText ∧
      ApartLeft x.toleranceText.toList := by
  simp only [texts, List.forall_mem_append, List.forall_mem_flatMap] at h
  obtain ⟨-, h⟩ := h
  have hcomma (e : Expr .real) (he : ∀ t ∈ e.texts, ¬ Mentions t) :
      Rounds e.needsRounding (", " ++ e.text) :=
    (gap_comma.append (e.rounds_text he)).of_eq (Bool.false_or _)
  have hleft (e : Expr .real) : ApartLeft (", " ++ e.text).toList := by
    rw [String.toList_append]
    exact gap_comma.left.append_left gap_comma.ne_nil
  unfold toleranceText
  cases htolerances : x.tolerances with
  | none =>
      simp only [Tolerances.toList, List.map_nil, String.join_nil, List.any_nil]
      exact ⟨rounds_of_notMem (by decide), by decide⟩
  | time t =>
      rw [htolerances] at h
      have ht := h t (by simp [Tolerances.toList])
      simp only [Tolerances.toList, List.map_cons, List.map_nil, String.join_cons,
        String.join_nil, String.append_empty]
      exact ⟨(hcomma t ht).of_eq (Bool.or_false _).symm, hleft t⟩
  | both t e =>
      rw [htolerances] at h
      have ht := h t (by simp [Tolerances.toList])
      have he := h e (by simp [Tolerances.toList])
      simp only [Tolerances.toList, List.map_cons, List.map_nil, String.join_cons,
        String.join_nil, String.append_empty]
      refine ⟨((hcomma t ht).append (hcomma e he) (.inr (hleft e))).of_eq ?_, ?_⟩
      · simp
      · rw [String.toList_append]
        exact (hleft t).append_left (by simp)

end Crossing

/-- Analyses that are named behind a word mention nothing. -/
theorem Event.rounds_stepText {name : String} (types : List Analysis) (hname : Rounds false name)
    (hopen : Closed false (name ++ "(")) : Rounds false (stepText name types) := by
  unfold stepText
  split
  · exact hname
  · exact ((hopen.append (Analysis.rounds_arguments types)).gap gap_end).toRounds

/-- **The text of an event** calls the rounding function exactly if the event does. -/
theorem Event.rounds_text (e : Event) (h : ∀ t ∈ e.texts, ¬ Mentions t) :
    Rounds e.needsRounding e.text := by
  induction e with
  | cross x edge =>
      have hopen : Closed false "cross(" := closed_of (by decide)
      have hdifference := (hopen.append (x.rounds_difference h)).gap gap_comma
      have hedge := hdifference.append (rounds_of_notMem (Literal.notMem_integer edge.code))
      obtain ⟨htolerances, hleft⟩ := x.rounds_toleranceText h
      refine ((hedge.append htolerances (.inr hleft)).gap gap_end).toRounds.of_eq ?_
      rw [Bool.false_or, Bool.or_false]
      rfl
  | above x =>
      have hopen : Closed false "above(" := closed_of (by decide)
      have hdifference := hopen.append (x.rounds_difference h)
      obtain ⟨htolerances, hleft⟩ := x.rounds_toleranceText h
      refine ((hdifference.append htolerances (.inr hleft)).gap gap_end).toRounds.of_eq ?_
      rw [Bool.false_or]
      rfl
  | timer start schedule =>
      simp only [texts, List.forall_mem_append, List.forall_mem_flatMap] at h
      obtain ⟨hstart, hschedule⟩ := h
      have harguments : Each Rounds (start.needsRounding || schedule.toList.any (·.needsRounding))
          ((start :: schedule.toList).map (·.text)) :=
        .cons (start.rounds_text hstart) (.map fun e he => e.rounds_text (hschedule e he))
      exact rounds_callText (closed_of (by decide)) harguments |>.of_eq (Bool.false_or _)
  | initialStep types =>
      exact rounds_stepText types (rounds_of_notInfix (by decide)) (closed_of (by decide))
  | finalStep types =>
      exact rounds_stepText types (rounds_of_notInfix (by decide)) (closed_of (by decide))
  | or a b iha ihb =>
      simp only [texts, List.forall_mem_append] at h
      exact ((iha h.1).gap (k := " or ") (gap_of (by decide))).append (ihb h.2)

/-! ### Commands -/

/-- **The text of a command** calls the rounding function exactly if the command does. -/
theorem Command.rounds_text (x : Command) (h : ∀ t ∈ x.texts, ¬ Mentions t) :
    Rounds x.needsRounding x.text := by
  cases x with
  | raw text => exact rounds_false_iff.mpr (h text (by simp [texts]))
  | assign target value =>
      have htarget := rounds_false_iff.mpr (h target (by simp [texts]))
      have hvalue := value.rounds_text fun t ht => h t (by simp [texts, ht])
      exact ((htarget.gap (k := " = ") (gap_of (by decide))).append hvalue).of_eq
        (Bool.false_or _)
  | increment target =>
      have htarget := rounds_false_iff.mpr (h target (by simp [texts]))
      have hboth := (htarget.gap (k := " = ") (gap_of (by decide))).append htarget
      exact hboth.append_quiet (rounds_of_notMem (by decide)) (.inr (by decide))
  | decrement target =>
      have htarget := rounds_false_iff.mpr (h target (by simp [texts]))
      have hboth := (htarget.gap (k := " = ") (gap_of (by decide))).append htarget
      exact hboth.append_quiet (rounds_of_notMem (by decide)) (.inr (by decide))
  | toggle target =>
      have htarget := rounds_false_iff.mpr (h target (by simp [texts]))
      exact (htarget.gap (k := " = !") (gap_of (by decide))).append htarget
  | contribute branch value =>
      simp only [texts, List.forall_mem_append] at h
      have hbranch := Branch.rounds_text h.1
      exact ((hbranch.gap (k := " <+ ") (gap_of (by decide))).append
        (value.rounds_text h.2)).of_eq (Bool.false_or _)
  | print task file format arguments =>
      simp only [texts, List.forall_mem_append, List.forall_mem_cons, List.forall_mem_flatMap] at h
      obtain ⟨hfile, hformat, harguments⟩ := h
      have htail : Each Rounds (arguments.any (·.needsRounding))
          (Text.quote format :: arguments.map (·.text)) :=
        (Each.cons (rounds_quote hformat) (.map fun v hv => v.rounds_text (harguments v hv))).of_eq
          (Bool.false_or _)
      cases file with
      | none =>
          refine (rounds_callText (b := false) ?_ htail).of_eq ?_
          · cases task <;> exact closed_of (by decide)
          · simp [needsRounding]
      | some file =>
          have hfile := file.rounds_text (hfile file (by simp))
          refine (rounds_callText (b := false) ?_ (.cons hfile htail)).of_eq ?_
          · cases task <;> exact closed_of (by decide)
          · simp [needsRounding]
  | closeFile file =>
      exact (rounds_callText (closed_of (by decide)) (.singleton (file.rounds_text h))).of_eq
        (Bool.false_or _)
  | finish => exact rounds_of_notMem (by decide)
  | stop => exact rounds_of_notMem (by decide)
  | discontinuity order =>
      have horder := rounds_of_notMem (Literal.notMem_integer order)
      exact rounds_callText (closed_of (by decide)) (.singleton horder)
  | boundStep step =>
      exact (rounds_callText (closed_of (by decide)) (.singleton (step.rounds_text h))).of_eq
        (Bool.false_or _)

end Stimulus
