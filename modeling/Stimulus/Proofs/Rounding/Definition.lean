import Stimulus.Proofs.Rounding.Parts
import Stimulus.Proofs.Rounding.Wrapping

/-!
# The definition of the rounding function

The definition of the rounding function is the only place in the text of a module where the name of
the function stands without calling it. So the definitions in a text can be counted by these places:
there is one if a command of the module calls the function, and there is none otherwise.

The defaults of the parameters are not among the commands. A default may call the function, and the
definition stays away (`Module.default_calls_undefined`).

## Main results

* `Module.definesAt_emit`: where a module without a fault defines the function.
* `Module.definition_emitted`: the function is defined once if a command calls it, and not at all
  otherwise.
-/

namespace Stimulus

/-! ### Definitions in texts -/

/-- A text defines the rounding function after `before`. -/
def DefinesAt (before : List Char) (text : String) : Prop :=
  ∃ after, text.toList = before ++ (Module.roundingFunction.toList ++ after)

namespace Module

/-- The definition in front of the name of the function. -/
def definitionHead : String :=
  "analog function integer "

/-- The definition behind the name of the function and a semicolon. -/
def definitionBody : String :=
  "\ninput in; real in;\nbegin _rtoi = floor(in + 0.5); end\nendfunction\n"

/-- The lines that are added to a module for the definition, after a line feed. -/
def definitionLines : String :=
  Text.banner "Build-in functions" ++ roundingFunction

/-- The definition is made of a head, the name of the function and a body. -/
theorem roundingFunction_eq :
    roundingFunction = definitionHead ++ (Expr.roundName ++ (";" ++ definitionBody)) := by
  decide +kernel

/-- A definition is a mention that does not call the function. -/
theorem mentionsAt_of_definesAt {before : List Char} {text : String} (h : DefinesAt before text) :
    ∃ after, MentionsAt (before ++ definitionHead.toList) (';' :: after) text.toList := by
  obtain ⟨after, heq⟩ := h
  have hsemicolon : ";".toList = [';'] := rfl
  refine ⟨definitionBody.toList ++ after, ?_, ?_, ?_⟩
  · rw [heq, roundingFunction_eq]
    simp only [String.toList_append, List.append_assoc, hsemicolon, List.cons_append,
      List.nil_append]
  · intro c hc
    rw [List.getLast?_append_of_ne_nil _ (by decide)] at hc
    obtain rfl : ' ' = c := Option.some.inj hc
    decide
  · intro c hc
    obtain rfl := Option.some.inj hc
    decide

/-- A text in which all mentions are calls defines nothing. -/
theorem not_definesAt_of_onlyCalls {text : String} (h : OnlyCalls text.toList)
    (before : List Char) : ¬ DefinesAt before text := by
  intro hdefines
  obtain ⟨after, hat⟩ := mentionsAt_of_definesAt hdefines
  obtain ⟨rest, hcall⟩ := h _ _ hat
  cases hcall

/-- The definition mentions the function in front of a semicolon in one place. -/
theorem eq_of_mentionsAt_roundingFunction {before after : List Char}
    (h : MentionsAt before (';' :: after) roundingFunction.toList) :
    before = definitionHead.toList := by
  have hplaces : ∀ n < roundingFunction.toList.length,
      Expr.roundName.toList ++ [';'] <+: roundingFunction.toList.drop n →
        n = definitionHead.toList.length := by
    decide +kernel
  have hstarts : Expr.roundName.toList ++ [';'] <+: roundingFunction.toList.drop before.length := by
    refine ⟨after, ?_⟩
    rw [h.text_eq, List.drop_left, List.append_assoc, List.singleton_append]
  have hbound : before.length < roundingFunction.toList.length := by
    rw [h.text_eq, List.length_append, List.length_append, List.length_cons]
    omega
  have heq := h.text_eq
  rw [roundingFunction_eq, String.toList_append] at heq
  exact (List.append_inj heq (hplaces _ hbound hstarts).symm).1.symm

/-- The definition ends in a line feed. -/
theorem getLast?_roundingFunction : roundingFunction.toList.getLast? = some '\n' := by
  decide +kernel

/-- The lines that are added end in a line feed. -/
theorem getLast?_definitionLines : definitionLines.toList.getLast? = some '\n' := by
  rw [definitionLines, String.toList_append, List.getLast?_append, getLast?_roundingFunction]
  rfl

/-- Wrapping leaves the lines that are added alone. -/
theorem wrapLines_definitionLines (column : Nat) :
    Text.wrapLines column definitionLines = definitionLines := by
  have hbanner : ∀ c ∈ (Text.banner "Build-in functions").toList, c ≠ ',' ∧ c ≠ '\r' := by
    decide +kernel
  have hfunction : ∀ c ∈ roundingFunction.toList, c ≠ ',' ∧ c ≠ '\r' := by
    decide +kernel
  have hlines : ∀ c ∈ definitionLines.toList, c ≠ ',' ∧ c ≠ '\r' := by
    rw [definitionLines, String.toList_append]
    exact List.forall_mem_append.mpr ⟨hbanner, hfunction⟩
  exact Text.wrapLines_eq column (fun h => (hlines _ h).1 rfl) (fun h => (hlines _ h).2 rfl)
    getLast?_definitionLines

/-- A text around the lines that are added defines the function once if its other mentions are
calls. -/
theorem existsUnique_definesAt {front back text : String}
    (heq : text = front ++ definitionLines ++ back) (hfront : OnlyCalls front.toList)
    (hapart : ApartRight front.toList) (hback : OnlyCalls back.toList) :
    ∃! before, DefinesAt before text := by
  have hbanner : Closed false (Text.banner "Build-in functions") :=
    Text.closed_banner (rounds_of_notMem (by decide))
  have hlines : ApartRight roundingFunction.toList := by
    intro c hc
    rw [getLast?_roundingFunction] at hc
    obtain rfl := Option.some.inj hc
    decide
  refine ⟨front.toList ++ (Text.banner "Build-in functions").toList, ⟨back.toList, ?_⟩, ?_⟩
  · rw [heq, definitionLines]
    simp only [String.toList_append, List.append_assoc]
  · intro before hdefines
    -- A definition mentions the name, and only the text that is added does so without calling.
    obtain ⟨after, hat⟩ := mentionsAt_of_definesAt hdefines
    have hjoined : text.toList = (front.toList ++ (Text.banner "Build-in functions").toList)
        ++ (roundingFunction.toList ++ back.toList) := by
      rw [heq, definitionLines]
      simp only [String.toList_append, List.append_assoc]
    have hcalls : OnlyCalls (front.toList ++ (Text.banner "Build-in functions").toList) :=
      hfront.append hbanner.onlyCalls (.inl hapart)
    rw [hjoined] at hat
    rcases (mentionsAt_append (.inl (hapart.append hbanner.right))).mp hat with
      ⟨rest, hrest, hin⟩ | ⟨rest, hbefore, hin⟩
    · obtain ⟨more, rfl⟩ := hcalls _ _ hin
      cases hrest
    · rcases (mentionsAt_append (.inl hlines)).mp hin with ⟨last, hlast, hin⟩ | ⟨last, -, hin⟩
      · cases last with
        | nil =>
            -- The name of the function would end the definition.
            have hname : ApartRight (rest ++ Expr.roundName.toList) := by
              rw [hin.text_eq, List.append_nil] at hlines
              exact hlines
            exact absurd (hname.eq_nil (List.append_nil _).symm) (by decide)
        | cons c last =>
            injection hlast with hc
            subst hc
            rw [eq_of_mentionsAt_roundingFunction hin] at hbefore
            exact List.append_cancel_right hbefore
      · obtain ⟨more, hcall⟩ := hback _ _ hin
        cases hcall

/-! ### Definitions in modules -/

/-- The texts of a module from which the function can be called: the initial values of the variables
and the commands of the three lists. -/
def commandTexts (m : Module) : List String :=
  m.declaredVariables.map (·.initial.text) ++ m.prologue.map (·.render 1)
    ++ m.body.map (·.render 1) ++ m.epilogue.map (·.render 1)

/-- A module that is emitted has no fault. -/
theorem fault_of_emit {m : Module} {text : String} (h : m.emit? = .ok text) : m.fault = none := by
  cases hfault : m.fault with
  | none => rfl
  | some f =>
      rw [emit?, hfault] at h
      cases h

/-- One of the texts of the members of a list calls the function if a member needs it. -/
theorem exists_callsRounding_map {α : Type} {l : List α} {f : α → String} {g : α → Bool}
    (h : ∀ a ∈ l, Rounds (g a) (f a)) :
    (∃ t ∈ l.map f, CallsRounding t) ↔ l.any g = true := by
  rw [List.any_eq_true]
  constructor
  · rintro ⟨t, ht, hcalls⟩
    obtain ⟨a, ha, rfl⟩ := List.mem_map.mp ht
    exact ⟨a, ha, (h a ha).callsRounding_iff.mp hcalls⟩
  · rintro ⟨a, ha, hneeds⟩
    exact ⟨f a, List.mem_map_of_mem ha, (h a ha).callsRounding_iff.mpr hneeds⟩

section Emission

variable {m : Module} (h : m.AllTexts (¬ Mentions ·)) (hinitialised : m.Initialised)

include h hinitialised

/-- A command calls the function if its tree does. -/
theorem exists_callsRounding_iff :
    (∃ t ∈ m.commandTexts, CallsRounding t) ↔ m.needsRounding = true := by
  have hinitial := exists_callsRounding_map fun (v : VariableDeclaration) hv =>
    v.initial.rounds_text (h.declared v hv).2
  have hprologue := exists_callsRounding_map fun i hi => (closed_prologueItem h hi 1).toRounds
  have hbody := exists_callsRounding_map fun (s : Statement) hs =>
    (s.closed_render 1 (h.body s hs)).toRounds
  have hepilogue := exists_callsRounding_map fun (s : Statement) hs =>
    (s.closed_render 1 (h.epilogue s hs)).toRounds
  have hinitialisation : m.initialisation.any (·.needsRounding)
      = m.declaredVariables.any (·.initial.needsRounding) := by
    rw [hinitialised, List.any_map]
    rfl
  simp only [commandTexts, needsRounding, hinitialisation, List.mem_append, or_and_right,
    exists_or, hinitial, hprologue, hbody, hepilogue, Bool.or_eq_true]

/-- **Where a module defines the function**: in one place if a command calls it, and nowhere
otherwise. -/
theorem definesAt_emit (hname : ¬ Mentions m.name) (hstamp : ¬ Mentions m.stamp) {text : String}
    (hemit : m.emit? = .ok text) :
    (m.needsRounding = true → ∃! before, DefinesAt before text) ∧
      (m.needsRounding = false → ∀ before, ¬ DefinesAt before text) := by
  have hfault : m.fault = none := fault_of_emit hemit
  have hfront : Closed false
      (m.headerPart ++ m.declarationPart ++ m.portsPart ++ m.disciplinesPart) :=
    closed_declarations (rounds_false_iff.mpr hname) (rounds_false_iff.mpr hstamp) h.nets
  have hback := closed_commands h hinitialised
  rw [emit?_eq hfault] at hemit
  obtain rfl := Except.ok.inj hemit
  constructor
  · intro hneeds
    have hparts : m.parts
        = (m.headerPart ++ m.declarationPart ++ m.portsPart ++ m.disciplinesPart ++ "\n")
          ++ definitionLines ++ (m.parametersPart ++ m.variablesPart ++ m.analogPart) := by
      rw [parts, functionsPart, if_pos hneeds, part, definitionLines]
      simp only [String.append_assoc]
    have hline : Closed false
        (m.headerPart ++ m.declarationPart ++ m.portsPart ++ m.disciplinesPart ++ "\n") :=
      hfront.append_closed (closed_of (by decide))
    have hfrontLines : (Text.wrapLines m.options.wrapColumn (m.headerPart ++ m.declarationPart
        ++ m.portsPart ++ m.disciplinesPart ++ "\n")).toList.getLast? = some '\n' :=
      Text.getLast?_wrapLines _ (by simp)
    -- The parts in front end a line, so that they are wrapped apart from the definition.
    have hlines : Text.wrapLines m.options.wrapColumn m.parts
        = Text.wrapLines m.options.wrapColumn
            (m.headerPart ++ m.declarationPart ++ m.portsPart ++ m.disciplinesPart ++ "\n")
          ++ definitionLines
          ++ Text.wrapLines m.options.wrapColumn
            (m.parametersPart ++ m.variablesPart ++ m.analogPart) := by
      rw [hparts, Text.wrapLines_append _ ?_, Text.wrapLines_append _ (by simp),
        wrapLines_definitionLines]
      rw [String.toList_append, List.getLast?_append, getLast?_definitionLines]
      rfl
    refine existsUnique_definesAt hlines (Text.onlyCalls_wrapLines _ hline.onlyCalls) ?_
      (Text.onlyCalls_wrapLines _ hback.onlyCalls)
    intro c hc
    rw [hfrontLines] at hc
    obtain rfl := Option.some.inj hc
    decide
  · intro hneeds before
    have hparts : m.parts
        = m.headerPart ++ m.declarationPart ++ m.portsPart ++ m.disciplinesPart
          ++ (m.parametersPart ++ m.variablesPart ++ m.analogPart) := by
      rw [parts, functionsPart, if_neg (by simp [hneeds]), String.append_empty]
      simp only [String.append_assoc]
    refine not_definesAt_of_onlyCalls (Text.onlyCalls_wrapLines _ ?_) before
    rw [hparts]
    exact (hfront.append hback.toRounds).onlyCalls

end Emission

/-! ### Modules after a history -/

/-- **The definition is written once if a command calls the function**, and it is not written
otherwise: in the text of a module after any history in which the caller gives no text that mentions
the function. -/
theorem definition_emitted {options : Options} {present name : String} {m₀ : Module}
    (h₀ : Module.new? options present name = .ok m₀) (history : List Operation)
    (hname : ¬ Mentions name) (hstamp : ¬ Mentions (options.header.resolve present))
    (hgiven : ∀ o ∈ history, ∀ t ∈ o.texts, ¬ Mentions t) {text : String}
    (hemit : (m₀.after history).emit? = .ok text) :
    ((∃ t ∈ (m₀.after history).commandTexts, CallsRounding t) → ∃! before, DefinesAt before text) ∧
      ((∀ t ∈ (m₀.after history).commandTexts, ¬ CallsRounding t) →
        ∀ before, ¬ DefinesAt before text) := by
  have hall := allTexts_after h₀ hgiven (fault_of_emit hemit)
  have hinitialised := initialised_after h₀ history
  obtain ⟨hkeptName, hkeptStamp⟩ := m₀.header_after history
  rw [eq_of_new? h₀] at hkeptName hkeptStamp
  obtain ⟨honce, hnever⟩ := definesAt_emit hall hinitialised
    (by rwa [eq_of_new? h₀, hkeptName]) (by rwa [eq_of_new? h₀, hkeptStamp]) hemit
  have hcalls := exists_callsRounding_iff hall hinitialised
  refine ⟨fun h => honce (hcalls.mp h), fun h => hnever ?_⟩
  rw [Bool.eq_false_iff]
  intro hneeds
  obtain ⟨t, ht, hcall⟩ := hcalls.mpr hneeds
  exact h t ht hcall

/-- A variable that starts with a rounded power. -/
theorem definition_emitted_power :
    ∃ m₀ text, Module.new? (.reproducible "stamp") "" "dut" = .ok m₀ ∧
      (m₀.after [.namedVariable "v" ⟨_, .power (.integer 2) (.integer 3)⟩]).emit? = .ok text ∧
      ∃! before, DefinesAt before text := by
  obtain ⟨m₀, h₀⟩ : ∃ m₀, Module.new? (.reproducible "stamp") "" "dut" = .ok m₀ := ⟨_, rfl⟩
  have hfault : (m₀.after [.namedVariable "v" ⟨_, .power (.integer 2) (.integer 3)⟩]).fault
      = none := by
    rw [eq_of_new? h₀, ← Option.isNone_iff_eq_none]
    decide +kernel
  have hneeds : (m₀.after [.namedVariable "v" ⟨_, .power (.integer 2) (.integer 3)⟩]).needsRounding
      = true := by
    rw [eq_of_new? h₀]
    decide +kernel
  have hgiven : ∀ o ∈ [Operation.namedVariable "v" ⟨_, .power (.integer 2) (.integer 3)⟩],
      ∀ t ∈ o.texts, ¬ Mentions t := by
    simp only [List.forall_mem_singleton, Operation.texts, Value.texts, Expr.texts,
      List.append_nil]
    exact rounds_false_iff.mp (rounds_of_notMem (by decide))
  refine ⟨m₀, _, h₀, emit?_eq hfault, ?_⟩
  exact (definition_emitted h₀ _ (rounds_false_iff.mp (rounds_of_notMem (by decide)))
    (rounds_false_iff.mp (rounds_of_notMem (by decide))) hgiven (emit?_eq hfault)).1
    ((exists_callsRounding_iff (allTexts_after h₀ hgiven hfault) (initialised_after h₀ _)).mpr
      hneeds)

/-- **A default that calls the function** leaves it undefined: the text of this module declares one
of its parameters as a rounded power, and it defines no function. -/
theorem default_calls_undefined :
    ∃ m₀ text, Module.new? (.reproducible "stamp") "" "dut" = .ok m₀ ∧
      (m₀.after [.parameter "bits" ⟨_, .integer 3⟩,
        .parameter "steps" ⟨_, .power (.integer 2) (.ident "bits")⟩]).emit? = .ok text ∧
      (∃ p ∈ (m₀.after [.parameter "bits" ⟨_, .integer 3⟩,
        .parameter "steps" ⟨_, .power (.integer 2) (.ident "bits")⟩]).parameters,
          CallsRounding p.default.text) ∧
      ∀ before, ¬ DefinesAt before text := by
  obtain ⟨m₀, h₀⟩ : ∃ m₀, Module.new? (.reproducible "stamp") "" "dut" = .ok m₀ := ⟨_, rfl⟩
  have hfault : (m₀.after [.parameter "bits" ⟨_, .integer 3⟩,
      .parameter "steps" ⟨_, .power (.integer 2) (.ident "bits")⟩]).fault = none := by
    rw [eq_of_new? h₀, ← Option.isNone_iff_eq_none]
    decide +kernel
  have hneeds : (m₀.after [.parameter "bits" ⟨_, .integer 3⟩,
      .parameter "steps" ⟨_, .power (.integer 2) (.ident "bits")⟩]).needsRounding = false := by
    rw [eq_of_new? h₀]
    decide +kernel
  have hgiven : ∀ o ∈ [Operation.parameter "bits" ⟨_, .integer 3⟩,
      .parameter "steps" ⟨_, .power (.integer 2) (.ident "bits")⟩],
      ∀ t ∈ o.texts, ¬ Mentions t := by
    have hbits : ¬ Mentions "bits" := rounds_false_iff.mp (rounds_of_notMem (by decide))
    have hsteps : ¬ Mentions "steps" := rounds_false_iff.mp (rounds_of_notMem (by decide))
    simp [Operation.texts, Value.texts, Expr.texts, hbits, hsteps]
  have hall := allTexts_after h₀ hgiven hfault
  refine ⟨m₀, _, h₀, emit?_eq hfault, ⟨⟨"steps", ⟨_, .power (.integer 2) (.ident "bits")⟩⟩, ?_, ?_⟩,
    (definesAt_emit hall (initialised_after h₀ _) ?_ ?_ (emit?_eq hfault)).2 hneeds⟩
  · rw [eq_of_new? h₀]
    exact List.mem_cons_of_mem _ List.mem_cons_self
  · have hround := (Expr.power (.integer 2) (.ident "bits")).rounds_text
      (hgiven _ (List.mem_cons_of_mem _ List.mem_cons_self) ·
        <| List.mem_cons_of_mem _ ·)
    exact hround.callsRounding_iff.mpr rfl
  · rw [(m₀.header_after _).1, eq_of_new? h₀]
    exact rounds_false_iff.mp (rounds_of_notMem (by decide))
  · rw [(m₀.header_after _).2, eq_of_new? h₀]
    exact rounds_false_iff.mp (rounds_of_notMem (by decide))

end Module

end Stimulus
