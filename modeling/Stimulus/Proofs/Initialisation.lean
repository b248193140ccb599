import Stimulus.Proofs.Naming
import Stimulus.Proofs.Rounding.Wrapping

/-!
# Initial values

The initial values of the variables are set twice in the text of a module: in a block for static
analyses and in one for the first step of a transient analysis. Both blocks are written from one
list of assignments, to which every declaration of a variable adds its own.

The blocks pass through the wrapping of lines separately. Wrapping knows nothing but the line it is
at, and the heads of the blocks have no place for a break, so the assignments come out alike.

## Main definitions

* `Module.emittedAssignments`, `Module.emittedBlock`: the blocks as they stand in the text.

## Main results

* `Module.wrapLines_initialisationBlock_append`: what wrapping makes of one of the blocks.
* `Module.initialisation_emitted`: the blocks of an emitted module.
-/

namespace Stimulus

/-! ### Blocks of commands -/

/-- Commands are written one on a line. -/
theorem renderEach_commands (depth : Nat) (cs : List Command) :
    renderEach depth (cs.map .command) = cs.map fun c => Layout.line depth (c.text ++ ";") := by
  induction cs with
  | nil => rfl
  | cons c cs ih =>
      rw [List.map_cons, renderEach, if_neg (by simp [Statement.isEmpty, Statement.leaves]), ih]
      rfl

/-- A line ends in a line feed. -/
theorem Layout.getLast?_line (depth : Nat) (text : String) :
    (Layout.line depth text).toList.getLast? = some '\n' := by
  simp [Layout.line]

/-- A block with children, of which a single one needs no enclosing. -/
theorem Layout.block_eq (depth : Nat) (header : String) {children : List String}
    (h : children ≠ []) :
    Layout.block depth false header children
      = if children.length = 1 then Layout.line depth header ++ String.join children
        else Layout.line depth (header ++ " begin") ++ String.join children
          ++ Layout.line depth "end" := by
  match children with
  | [] => exact absurd rfl h
  | [child] => simp [Layout.block]
  | _ :: _ :: _ => simp [Layout.block]

/-- Texts that end in line feeds, and what follows them, are wrapped one after the other. -/
theorem Text.wrapLines_join_append (column : Nat) {ts : List String}
    (h : ∀ t ∈ ts, t.toList.getLast? = some '\n') (back : String) :
    Text.wrapLines column (String.join ts ++ back)
      = String.join (ts.map (Text.wrapLines column)) ++ Text.wrapLines column back := by
  induction ts with
  | nil => simp
  | cons t ts ih =>
      rw [List.forall_mem_cons] at h
      rw [String.join_cons, String.append_assoc, Text.wrapLines_append column h.1, ih h.2,
        List.map_cons, String.join_cons, String.append_assoc]

namespace Module

variable (m : Module)

/-! ### The blocks in the text -/

/-- The assignments of the initial values as they stand in the text, each on a line of its own that
is wrapped. -/
def emittedAssignments : String :=
  String.join (m.initialisation.map fun c =>
    Text.wrapLines m.options.wrapColumn (Layout.line 2 (c.text ++ ";")))

/-- A block of these assignments as it stands in the text. A single assignment is not enclosed. -/
def emittedBlock (header : String) : String :=
  if m.initialisation.length = 1 then Layout.line 1 header ++ m.emittedAssignments
  else Layout.line 1 (header ++ " begin") ++ m.emittedAssignments ++ Layout.line 1 "end"

variable {m}

/-- A line without commas and returns is settled. -/
theorem settled_indented {depth : Nat} {text : String}
    (h : ∀ c ∈ text.toList, c ≠ ',' ∧ c ≠ '\r') : Settled (Layout.line depth text) where
  unbroken := by
    simp only [Layout.line, Layout.indent, String.toList_append, String.toList_ofList,
      List.forall_mem_append]
    refine ⟨⟨fun c hc => ?_, h⟩, by decide⟩
    rw [List.eq_of_mem_replicate hc]
    decide
  ended c hc := by
    rw [Layout.getLast?_line] at hc
    exact (Option.some.inj hc).symm

/-- The block of a head that has no place for a break comes out of wrapping with its assignments
wrapped, and what follows it is wrapped by itself. -/
theorem wrapLines_initialisationBlock_append {header : String}
    (hheader : ∀ c ∈ header.toList, c ≠ ',' ∧ c ≠ '\r') (hne : m.initialisation ≠ [])
    (back : String) :
    Text.wrapLines m.options.wrapColumn (m.initialisationBlock header ++ back)
      = m.emittedBlock header ++ Text.wrapLines m.options.wrapColumn back := by
  let lines := m.initialisation.map fun c => Layout.line 2 (c.text ++ ";")
  have hlines : ∀ t ∈ lines, t.toList.getLast? = some '\n' := by
    intro t ht
    obtain ⟨c, -, rfl⟩ := List.mem_map.mp ht
    exact Layout.getLast?_line _ _
  have hassignments (back : String) :
      Text.wrapLines m.options.wrapColumn (String.join lines ++ back)
        = m.emittedAssignments ++ Text.wrapLines m.options.wrapColumn back := by
    rw [Text.wrapLines_join_append _ hlines, List.map_map]
    rfl
  have hline (text back : String) (h : ∀ c ∈ text.toList, c ≠ ',' ∧ c ≠ '\r') :
      Text.wrapLines m.options.wrapColumn (Layout.line 1 text ++ back)
        = Layout.line 1 text ++ Text.wrapLines m.options.wrapColumn back := by
    rw [Text.wrapLines_append _ (Layout.getLast?_line _ _),
      (settled_indented h).wrapLines_eq (by simp [Layout.line])]
  rw [initialisationBlock, renderEach_commands, Layout.block_eq _ _ (by simpa), emittedBlock,
    List.length_map]
  split
  · rw [String.append_assoc, hline _ _ hheader, hassignments, String.append_assoc]
  · have hbegin : ∀ c ∈ (header ++ " begin").toList, c ≠ ',' ∧ c ≠ '\r' := by
      rw [String.toList_append, List.forall_mem_append]
      exact ⟨hheader, by decide⟩
    simp only [String.append_assoc]
    rw [hline _ _ hbegin, hassignments, hline _ _ (by decide)]

/-! ### The text of the analog block -/

/-- What stands before the analog block. -/
def beforeAnalog (m : Module) : String :=
  m.headerPart ++ m.declarationPart ++ m.portsPart ++ m.disciplinesPart ++ m.functionsPart
    ++ m.parametersPart ++ m.variablesPart ++ "\n" ++ Text.banner "Analog block"

/-- What stands in the analog block behind the initial values, and the end of the module. -/
def afterInitialisation (m : Module) : String :=
  String.join (m.prologue.map (·.render 1)) ++ String.join (m.body.map (·.render 1))
    ++ String.join (m.epilogue.map (·.render 1)) ++ "end\nendmodule\n"

/-- The initial values as they stand in the text: two blocks of the same assignments, if there are
any. -/
def emittedInitialisation (m : Module) : String :=
  if m.declaredVariables = [] then ""
  else m.emittedBlock "if( analysis(\"static\") )" ++ m.emittedBlock "@( initial_step(\"tran\") )"

/-- The initial values are wrapped by themselves. -/
theorem wrapLines_initialisationPart_append (h : m.Initialised) (back : String) :
    Text.wrapLines m.options.wrapColumn (m.initialisationPart ++ back)
      = m.emittedInitialisation ++ Text.wrapLines m.options.wrapColumn back := by
  unfold initialisationPart emittedInitialisation
  by_cases hvariables : m.declaredVariables = []
  · have hnone : m.initialisation = [] := by rw [h, hvariables, List.map_nil]
    rw [hnone, if_pos hvariables]
    rfl
  · have hne : m.initialisation ≠ [] := by
      rw [h]
      exact mt List.map_eq_nil_iff.mp hvariables
    have hstatic : staticHeader = "if( analysis(\"static\") )" := by decide +kernel
    have htransient : transientHeader = "@( initial_step(\"tran\") )" := by decide +kernel
    rw [if_neg (by simpa using hne), if_neg hvariables, hstatic, htransient, String.append_assoc,
      wrapLines_initialisationBlock_append (by decide) hne,
      wrapLines_initialisationBlock_append (by decide) hne, String.append_assoc]

/-- **Initial values in the text.** After any history that has not failed and for every column at
which lines are wrapped: the list of assignments has one assignment for each variable, to that
variable and in the order of declaration, and no two variables have the same name. If there are
variables, the analog block starts with two blocks of these assignments, one for static analyses
and one for the first step of a transient one, which agree but for their heads. If there are none,
nothing stands there. -/
theorem initialisation_emitted {options : Options} {present name : String} {m₀ : Module}
    (h₀ : Module.new? options present name = .ok m₀) {history : List Operation}
    (hfault : (m₀.after history).fault = none) :
    (m₀.after history).initialisation
        = (m₀.after history).declaredVariables.map (fun v => .assign v.name v.initial) ∧
      ((m₀.after history).declaredVariables.map (·.name)).Nodup ∧
      (m₀.after history).emit?
        = .ok (Text.wrapLines options.wrapColumn (m₀.after history).beforeAnalog
          ++ "analog begin\n"
          ++ (m₀.after history).emittedInitialisation
          ++ Text.wrapLines options.wrapColumn (m₀.after history).afterInitialisation) := by
  have hinitialised := initialised_after h₀ history
  have hoptions : (m₀.after history).options = options := by
    rw [options_after, eq_of_new? h₀]
  refine ⟨hinitialised, (wellNamed_after h₀ history).nodup_variables, ?_⟩
  generalize m₀.after history = m at hfault hinitialised hoptions
  subst hoptions
  have hparts : m.parts = m.beforeAnalog ++ ("analog begin\n" ++ (m.initialisationPart
      ++ m.afterInitialisation)) := by
    simp only [parts, beforeAnalog, analogPart, part, afterInitialisation, String.append_assoc]
  have hbefore : m.beforeAnalog.toList.getLast? = some '\n' := by
    have hend : ("*/\n".toList).getLast? = some '\n' := by decide
    simp only [beforeAnalog, Text.banner, String.toList_append, List.getLast?_append, hend,
      Option.some_or]
  have hopen : Settled "analog begin\n" := ⟨by decide, by decide⟩
  rw [emit?_eq hfault, hparts, Text.wrapLines_append _ hbefore,
    Text.wrapLines_append _ (by decide), hopen.wrapLines_eq (by decide),
    wrapLines_initialisationPart_append hinitialised]
  simp only [String.append_assoc]

/-- Two variables, of which the first one has an initial value that is broken in both blocks. -/
theorem initialisation_emitted_broken :
    let history : List Operation :=
      [.namedVariable "gain" ⟨_, .call₂ .max (.call .exp (.ident "x")) (.ident "y")⟩,
        .anonymousVariable ⟨_, .integer 0⟩]
    let assignments := "        gain = max(exp(x),\n            y);\n        _$1 = 0;\n"
    ∃ m₀, Module.new? { Options.standard with wrapColumn := 20 } "" "dut" = .ok m₀ ∧
      (m₀.after history).fault = none ∧
      ∃ front back, (m₀.after history).emit? = .ok (front ++ "analog begin\n"
        ++ ("    if( analysis(\"static\") ) begin\n" ++ assignments ++ "    end\n"
          ++ ("    @( initial_step(\"tran\") ) begin\n" ++ assignments ++ "    end\n")) ++ back) := by
  intro history assignments
  obtain ⟨m₀, h₀⟩ :
      ∃ m₀, Module.new? { Options.standard with wrapColumn := 20 } "" "dut" = .ok m₀ := ⟨_, rfl⟩
  have hfault : (m₀.after history).fault = none := by
    rw [eq_of_new? h₀, ← Option.isNone_iff_eq_none]
    decide +kernel
  have hblocks : (m₀.after history).emittedInitialisation
      = "    if( analysis(\"static\") ) begin\n" ++ assignments ++ "    end\n"
        ++ ("    @( initial_step(\"tran\") ) begin\n" ++ assignments ++ "    end\n") := by
    rw [eq_of_new? h₀]
    decide +kernel
  obtain ⟨-, -, hemit⟩ := initialisation_emitted h₀ hfault
  rw [hblocks] at hemit
  exact ⟨m₀, h₀, hfault, _, _, hemit⟩

end Module

end Stimulus
