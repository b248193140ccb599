import Stimulus.Module.Text
import Stimulus.Proofs.Rounding.Devices
import Stimulus.Proofs.Rounding.Statement
import Stimulus.Proofs.Sequence.Waits

/-!
# Calls in modules

The parts of a module mention the rounding function only by calling it. Four of them stand in front
of its definition, and they do not call it. What follows calls it if a default of a parameter does,
or if a command does. Only the commands decide whether it is defined.

## Main results

* `Module.closed_declarations`: the parts in front of the definition.
* `Module.closed_commands`: the parts behind it.
-/

namespace Stimulus

variable {b : Bool} {t : String}

/-! ### Comments -/

namespace Text

section Runs

variable {c : Char} (hc : Name.isRest c = false) (n : Nat)

include hc

/-- A run of a character that is in no name consists of such characters. -/
theorem apart_of_mem_run {d : Char} (hd : d ∈ (run n c).toList) : Name.isRest d = false := by
  rw [run, String.toList_ofList] at hd
  rw [(List.mem_replicate.mp hd).2]
  exact hc

/-- A run of a character that is in no name is closed. -/
theorem closed_run : Closed false (run n c) where
  toRounds := rounds_of_notMem fun h => absurd (apart_of_mem_run hc n h) (by decide)
  right _ hd := apart_of_mem_run hc n (List.mem_of_getLast? hd)

/-- A text in front of a run mentions what it mentions alone. -/
theorem closed_append_run (h : Rounds false t) : Rounds false (t ++ run n c) :=
  h.append_quiet (closed_run hc n).toRounds
    (.inr fun _ hd => apart_of_mem_run hc n (List.mem_of_head? hd))

end Runs

/-- A rule mentions nothing. -/
theorem closed_rule : Closed false rule := by
  have hopen : Closed false "/*" := closed_of (by decide)
  exact (hopen.append (closed_run (c := '-') (by decide) _).toRounds).gap (gap_of (by decide))

/-- A banner mentions what its title mentions. -/
theorem closed_banner (h : Rounds false t) : Closed false (banner t) := by
  have hopen : Closed false "/*" := closed_of (by decide)
  have hblank : Gap " " := gap_of (by decide)
  have hdashes (n : Nat) : Closed false (run n '-') := closed_run (by decide) n
  have htitle : Closed false (" " ++ t ++ " ") := (hblank.append h).gap hblank
  exact (((hopen.append_closed (hdashes _)).append_closed htitle).append
    (hdashes _).toRounds).gap (gap_of (by decide))

/-- A boxed text mentions what the text mentions. -/
theorem closed_boxed (h : Rounds false t) : Closed false (boxed t) := by
  have hopen : Closed false "/* " := closed_of (by decide)
  exact (closed_append_run (c := ' ') (by decide) _ (hopen.append h)).gap (gap_of (by decide))

end Text

namespace Module

/-- A part mentions what its content mentions, if its title mentions nothing. -/
theorem closed_part {title content : String} (htitle : '_' ∉ title.toList)
    (h : Closed b content) : Closed b (part title content) := by
  have hline : Closed false "\n" := closed_of (by decide)
  have hbanner := Text.closed_banner (rounds_of_notMem htitle)
  exact ((hline.append_closed hbanner).append_closed h).of_eq (Bool.false_or b)

/-! ### Declarations -/

section Declarations

variable {m : Module}

/-- The header mentions what the name of the module and the stamp mention. -/
theorem closed_headerPart (hname : Rounds false m.name) (hstamp : Rounds false m.stamp) :
    Closed false m.headerPart := by
  have hrule : Closed false Text.rule := Text.closed_rule
  have htitle : Closed false "Verilog-A module `" := closed_of (by decide)
  have hgenerator : Rounds false generator := rounds_of_notMem (by decide)
  have hconstants : Closed false "`include \"constants.vams\"\n" := closed_of (by decide)
  have hdisciplines : Closed false "`include \"disciplines.vams\"\n" := closed_of (by decide)
  have hfirst := Text.closed_boxed
    (((htitle.append hname).gap (k := "` generated by ") (gap_of (by decide))).append hgenerator)
  exact (((((hrule.append_closed hfirst).append_closed (Text.closed_boxed hstamp)).append_closed
    hrule).append_closed hconstants).append_closed hdisciplines)

/-- The range of a bus mentions nothing. -/
theorem closed_range (n : NetDeclaration) : Closed false n.range := by
  unfold NetDeclaration.range
  split
  · have hopen : Closed false "[" := closed_of (by decide)
    exact (hopen.append (rounds_of_notMem (notMem_toString _))).gap (gap_of (by decide))
  · exact closed_of (by decide)

/-- The declaration mentions what the names of the module and of its ports mention. -/
theorem closed_declarationPart (hname : Rounds false m.name)
    (hnets : ∀ n ∈ m.nets, ¬ Mentions n.name) : Closed false m.declarationPart := by
  have hmodule : Closed false "module " := closed_of (by decide)
  have hhead : Closed false ("module " ++ m.name ++ "(") :=
    (hmodule.append hname).gap (gap_of (by decide))
  have hseparator : Gap (",\n" ++ Text.run ("module " ++ m.name ++ "(").length ' ') := by
    have hline : Gap ",\n" := gap_of (by decide)
    have hindent := Text.closed_run (c := ' ') (by decide) ("module " ++ m.name ++ "(").length
    refine ⟨hline.toClosed.append_closed hindent, ?_, ?_⟩
    · rw [String.toList_append]
      exact hline.left.append_left hline.ne_nil
    · rw [String.toList_append]
      exact List.append_ne_nil_of_left_ne_nil hline.ne_nil _
  have hports : Each Rounds false (m.ports.map (·.name)) :=
    .quiet fun n hn => rounds_false_iff.mpr (hnets n (List.mem_filter.mp hn).1)
  exact closed_part (by decide) ((hhead.append (hports.intercalate hseparator)).gap
    (gap_of (by decide)))

/-- The keyword of a port mentions nothing. -/
theorem closed_keyword {d : Direction} {keyword : String} (h : d.keyword? = some keyword) :
    Closed false (keyword ++ " ") := by
  cases d <;> cases h <;> exact closed_of (by decide)

/-- The direction of a port mentions what its name mentions. -/
theorem closed_portLine {n : NetDeclaration} (h : ¬ Mentions n.name) :
    Closed false (portLine n) := by
  unfold portLine
  split
  case h_1 hkeyword =>
      have hfront := (closed_keyword hkeyword).append_closed (closed_range n)
      exact (hfront.append (rounds_false_iff.mpr h)).gap (gap_of (by decide))
  case h_2 => exact closed_of (by decide)

/-- The discipline of a net mentions what its name mentions. -/
theorem closed_disciplineLine {n : NetDeclaration} (h : ¬ Mentions n.name) :
    Closed false (disciplineLine n) := by
  have hkeyword : Closed false "electrical " := closed_of (by decide)
  have hfront := hkeyword.append_closed (closed_range n)
  exact (hfront.append (rounds_false_iff.mpr h)).gap (gap_of (by decide))

/-- **The parts in front of the definition** mention nothing. -/
theorem closed_declarations (hname : Rounds false m.name) (hstamp : Rounds false m.stamp)
    (hnets : ∀ n ∈ m.nets, ¬ Mentions n.name) :
    Closed false (m.headerPart ++ m.declarationPart ++ m.portsPart ++ m.disciplinesPart) := by
  have hports : Closed false m.portsPart := by
    refine closed_part (by decide) (Each.quiet fun n hn => ?_).join
    exact closed_portLine (hnets n (List.mem_filter.mp hn).1)
  have hdisciplines : Closed false m.disciplinesPart :=
    closed_part (by decide) (Each.quiet fun n hn => closed_disciplineLine (hnets n hn)).join
  exact ((((closed_headerPart hname hstamp).append_closed
    (closed_declarationPart hname hnets)).append_closed hports).append_closed hdisciplines)

end Declarations

/-! ### Parameters and variables -/

section Contents

variable {m : Module} (h : m.AllTexts (¬ Mentions ·))

/-- The keyword of a kind mentions nothing. -/
theorem rounds_keyword (k : Kind) : Rounds false k.keyword := by
  cases k <;> exact rounds_of_notMem (by decide)

include h

/-- The parameters call the function if a default does. -/
theorem closed_parametersPart :
    Closed (m.parameters.any (·.default.needsRounding)) m.parametersPart := by
  unfold parametersPart
  split
  case isTrue hempty =>
      rw [List.isEmpty_iff.mp hempty]
      exact closed_of (by decide)
  case isFalse =>
      refine closed_part (by decide) (Each.map fun p hp => ?_).join
      obtain ⟨hname, hdefault⟩ := h.parameters p hp
      have hkeyword : Closed false "parameter " := closed_of (by decide)
      have hblank : Gap " " := gap_of (by decide)
      have hkind := (hkeyword.append (rounds_keyword p.default.kind)).gap hblank
      have hfront := (hkind.append (rounds_false_iff.mpr hname)).gap (k := " = ")
        (gap_of (by decide))
      exact ((hfront.append (p.default.rounds_text hdefault)).gap (gap_of (by decide))).of_eq
        (Bool.false_or _)

/-- The declarations of the variables mention nothing. -/
theorem closed_variablesPart : Closed false m.variablesPart := by
  unfold variablesPart
  split
  · exact closed_of (by decide)
  · refine closed_part (by decide) (Each.quiet fun v hv => ?_).join
    have hkind := (rounds_keyword v.initial.kind).gap (k := " ") (gap_of (by decide))
    exact (hkind.append (rounds_false_iff.mpr (h.declared v hv).1)).gap (gap_of (by decide))

/-! ### The analog block -/

variable (hinitialised : m.Initialised)

include hinitialised

/-- The initial values call the function if one of them does. -/
theorem closed_initialisationBlock {header : String} (hheader : Rounds false header) :
    Closed (m.initialisation.any (·.needsRounding)) (m.initialisationBlock header) := by
  have htexts : ∀ t ∈ textsOf (m.initialisation.map .command), ¬ Mentions t := by
    intro t ht
    obtain ⟨s, hs, ht⟩ := mem_textsOf.mp ht
    obtain ⟨c, hc, rfl⟩ := List.mem_map.mp hs
    rw [hinitialised] at hc
    obtain ⟨v, hv, rfl⟩ := List.mem_map.mp hc
    rcases List.mem_cons.mp ht with rfl | ht
    · exact (h.declared v hv).1
    · exact (h.declared v hv).2 t ht
  refine (Layout.closed_block 1 false hheader (each_renderEach _ 2 htexts)).of_eq ?_
  rw [Bool.false_or, anyNodeOf_eq_any, List.any_map]
  rfl

/-- The initial values of both kinds of analysis. -/
theorem closed_initialisationPart :
    Closed (m.initialisation.any (·.needsRounding)) m.initialisationPart := by
  have hstatic : Rounds false staticHeader := by
    have hopen : Closed false "if( " := closed_of (by decide)
    exact ((hopen.append (rounds_of_notMem (by decide))).gap gap_close).toRounds
  have htransient : Rounds false transientHeader :=
    Head.rounds_text (.onEvent (.initialStep [.tran])) (List.forall_mem_nil _)
  unfold initialisationPart
  split
  case isTrue hempty =>
      rw [List.isEmpty_iff.mp hempty]
      exact closed_of (by decide)
  case isFalse =>
      exact ((closed_initialisationBlock h hinitialised hstatic).append_closed
        (closed_initialisationBlock h hinitialised htransient)).of_eq (Bool.or_self _)

omit hinitialised in
/-- An item of the prologue calls the function if its tree does. -/
theorem closed_prologueItem {item : PrologueItem} (hitem : item ∈ m.prologue) (depth : Nat) :
    Closed item.needsRounding (item.render depth) := by
  have htexts := h.prologue item hitem
  cases item with
  | statement s => exact s.closed_render depth htexts
  | shared b =>
      obtain ⟨hevent, hclauses⟩ := List.forall_mem_append.mp htexts
      have hhead := (Head.onEvent b.event).rounds_text hevent
      refine (Layout.closed_block depth false hhead
        (each_renderEach _ (depth + 1) hclauses)).of_eq ?_
      rw [anyNodeOf_eq_any]
      rfl

/-- The analog block calls the function if one of its commands does. -/
theorem closed_analogPart : Closed m.needsRounding m.analogPart := by
  have hopen : Closed false "analog begin\n" := closed_of (by decide)
  have hend : Closed false "end\nendmodule\n" := closed_of (by decide)
  have hprologue : Closed _ (String.join (m.prologue.map (·.render 1))) :=
    (Each.map fun i hi => closed_prologueItem h hi 1).join
  have hbody : Closed _ (String.join (m.body.map (·.render 1))) :=
    (Each.map fun s hs => s.closed_render 1 (h.body s hs)).join
  have hepilogue : Closed _ (String.join (m.epilogue.map (·.render 1))) :=
    (Each.map fun s hs => s.closed_render 1 (h.epilogue s hs)).join
  have hcommands := (((hopen.append_closed (closed_initialisationPart h hinitialised)).append_closed
    hprologue).append_closed hbody).append_closed hepilogue
  refine closed_part (by decide) ((hcommands.append_closed hend).of_eq ?_)
  rw [Bool.false_or, Bool.or_false]
  rfl

/-- **The parts behind the definition** call the function if a default of a parameter or a command
does. -/
theorem closed_commands :
    Closed (m.parameters.any (·.default.needsRounding) || m.needsRounding)
      (m.parametersPart ++ m.variablesPart ++ m.analogPart) :=
  ((closed_parametersPart h).append_closed (closed_variablesPart h)).append_closed
    (closed_analogPart h hinitialised) |>.of_eq (by rw [Bool.or_false])

end Contents

end Module

end Stimulus
