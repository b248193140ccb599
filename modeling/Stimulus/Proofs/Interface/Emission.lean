import Stimulus.Proofs.Handles
import Stimulus.Proofs.Interface.Reading

/-!
# The interface in the text

What a module has to do with its surroundings stands in four parts of its text: the declaration
lists the ports, and the parts below give the direction and the range of each port, the discipline
and the range of each net and the type of each variable. The ports are written three times, by
different functions and from a list of nets that has other nets in it too.

A reader of interfaces gets all of this back. None of the lines it reads is broken: lines are broken
only between a closing parenthesis and a comma, and no line of these parts has both. Above them
stands the stamp, and between them stand the defaults of the parameters, which may contain anything
but line feeds and may be broken anywhere.

## Main definitions

* `Module.interface`: the interface of a module by its declarations.
* `Module.headerLines`, `Module.textParts`: the lines of a module above its analog block.

## Main results

* `Module.parts_eq`: the text of a module consists of these lines and its analog block.
* `Module.interface_read`: the interface of a module is read back from what is emitted.
-/

namespace Stimulus

open Grammar

/-! ### The interface of a module -/

/-- The upper index of the range of a net. -/
def NetDeclaration.upper (d : NetDeclaration) : Option Nat :=
  if 1 < d.width then some (d.width - 1) else none

/-- The entry of a net under a word. -/
def NetDeclaration.entry (word : String) (d : NetDeclaration) : Interface.Entry :=
  ⟨word, d.upper, d.name⟩

/-- The entry of a variable. -/
def VariableDeclaration.entry (v : VariableDeclaration) : Interface.Entry :=
  ⟨v.initial.kind.keyword, none, v.name⟩

/-- **The interface** of a module. -/
def Module.interface (m : Module) : Interface where
  name := m.name
  header := m.ports.map (·.name)
  ports := m.ports.map fun d => d.entry d.direction.title
  disciplines := m.nets.map (·.entry "electrical")
  types := m.declaredVariables.map (·.entry)

/-- The range of a net. -/
theorem NetDeclaration.range_eq (d : NetDeclaration) : d.range = Interface.Entry.range d.upper := by
  rw [range, upper]
  split <;> rfl

/-! ### The lines of a module -/

namespace Text

/-- A line of dashes, without its end. -/
def ruleLine : String :=
  "/*" ++ run (bannerWidth - 4) '-' ++ "*/"

/-- A text at the left of a line, without the end of the line. -/
def boxedLine (text : String) : String :=
  "/* " ++ text ++ run (bannerWidth - 6 - text.length) ' ' ++ " */"

/-- A text in a box is a plain line if there is no line feed in it. -/
theorem plain_boxedLine {text : String} (h : '\n' ∉ text.toList) : Plain (boxedLine text) := by
  have hend : OneLine " */" := ⟨by decide, by decide⟩
  have hblanks (n : Nat) : '\n' ∉ (run n ' ').toList := by
    rw [run, String.toList_ofList, List.mem_replicate]
    exact fun h => absurd h.2 (by decide)
  have hone : OneLine (boxedLine text) := by
    refine hend.append (by decide) ?_
    rw [String.toList_append, String.toList_append, List.mem_append, List.mem_append, not_or,
      not_or]
    exact ⟨⟨by decide, h⟩, hblanks _⟩
  have hopening : Opening "/* " := ⟨by decide, by decide, by decide⟩
  rw [boxedLine, String.append_assoc, String.append_assoc] at hone ⊢
  exact hopening.plain (by decide) hone

end Text

namespace Module

variable {m : Module}

/-- The line of a port. -/
theorem portLine_eq {d : NetDeclaration} (h : d ∈ m.ports) :
    portLine d = (d.entry d.direction.title).line ++ "\n" := by
  rw [portLine, Direction.keyword?_title (List.mem_filter.mp h).2, d.range_eq]
  simp [Interface.Entry.line, NetDeclaration.entry, String.append_assoc]

/-- The line of the discipline of a net. -/
theorem disciplineLine_eq (d : NetDeclaration) :
    disciplineLine d = (d.entry "electrical").line ++ "\n" := by
  rw [disciplineLine, d.range_eq]
  simp [Interface.Entry.line, NetDeclaration.entry, String.append_assoc]

/-- The line of a variable. -/
theorem variableLine_eq (v : VariableDeclaration) : variableLine v = v.entry.line ++ "\n" := by
  simp [variableLine, Interface.Entry.line, Interface.Entry.range, VariableDeclaration.entry,
    String.append_assoc]

/-- The lines of the rounding function. -/
def roundingLines : List String :=
  ["analog function integer _rtoi;", "input in; real in;", "begin _rtoi = floor(in + 0.5); end",
    "endfunction"]

/-- The lines of the header. -/
def headerLines (m : Module) : List String :=
  [Text.ruleLine, Text.boxedLine ("Verilog-A module `" ++ m.name ++ "` generated by " ++ generator),
    Text.boxedLine m.stamp, Text.ruleLine, "`include \"constants.vams\"",
    "`include \"disciplines.vams\""]

/-- The lines of the declaration. -/
def declarationLines (m : Module) : List String :=
  let head := "module " ++ m.name ++ "("
  Interface.listed (Text.run head.length ' ') head (m.ports.map (·.name))

/-- The line of a parameter, without its end. -/
def parameterText (p : ParameterDeclaration) : String :=
  "parameter " ++ p.default.kind.keyword ++ " " ++ p.name ++ " = " ++ p.default.text ++ ";"

/-- The line of a parameter. -/
theorem parameterLine_eq (p : ParameterDeclaration) :
    parameterLine p = parameterText p ++ "\n" := by
  have hend : ";\n" = ";" ++ "\n" := by decide
  exact (congrArg (_ ++ ·) hend).trans String.append_assoc.symm

/-- The parts of a text between the header and the analog block. -/
def textParts (m : Module) : List Text.Part :=
  [⟨"Module declaration", m.declarationLines⟩, ⟨"Ports", m.interface.ports.map (·.line)⟩,
    ⟨"Disciplines", m.interface.disciplines.map (·.line)⟩]
  ++ (if m.needsRounding then [⟨"Build-in functions", roundingLines⟩] else [])
  ++ (if m.parameters.isEmpty then [] else [⟨"Parameters", m.parameters.map parameterText⟩])
  ++ if m.declaredVariables.isEmpty then [] else [⟨"Variables", m.interface.types.map (·.line)⟩]

/-- A part of the text is a part of lines. -/
theorem part_ended (title : String) (content : List String) :
    part title (Text.ended content) = Text.ended (Text.Part.lines ⟨title, content⟩) := by
  rw [part, Text.banner_eq, Text.Part.lines, Text.ended_cons, Text.ended_cons]
  simp [String.append_assoc]

/-- A part that may be left out is a part of lines, or of none. -/
theorem part_ended_unless (absent : Bool) (title : String) (content : List String) :
    (if absent then "" else part title (Text.ended content))
      = Text.ended (List.flatMap Text.Part.lines (if absent then [] else [⟨title, content⟩])) := by
  cases absent with
  | true => rfl
  | false =>
      rw [if_neg Bool.false_ne_true, if_neg Bool.false_ne_true, List.flatMap_singleton, part_ended]

/-- Texts that are ended lines. -/
theorem join_eq_ended {α : Type} {xs : List α} {text line : α → String}
    (h : ∀ x ∈ xs, text x = line x ++ "\n") :
    String.join (xs.map text) = Text.ended (xs.map line) := by
  rw [Text.ended, List.map_map]
  exact congrArg String.join (List.map_congr_left h)

/-- Declarations are the lines of their entries. -/
theorem join_eq_ended_entries {α : Type} {xs : List α} {text : α → String}
    {entry : α → Interface.Entry} (h : ∀ x ∈ xs, text x = (entry x).line ++ "\n") :
    String.join (xs.map text) = Text.ended ((xs.map entry).map (·.line)) := by
  rw [List.map_map]
  exact join_eq_ended h

/-- The header is made of its lines. -/
theorem headerPart_eq (m : Module) : m.headerPart = Text.ended m.headerLines := by
  simp [headerPart, headerLines, Text.ended, Text.rule, Text.ruleLine, Text.boxed, Text.boxedLine,
    String.append_assoc]

/-- The declaration is made of its lines. -/
theorem declarationPart_eq (m : Module) : m.declarationPart
    = Text.ended (Text.Part.lines ⟨"Module declaration", m.declarationLines⟩) := by
  rw [← part_ended, declarationLines, Interface.ended_listed, declarationPart]

/-- The part with the ports is made of the lines of their entries. -/
theorem portsPart_eq (m : Module) :
    m.portsPart = Text.ended (Text.Part.lines ⟨"Ports", m.interface.ports.map (·.line)⟩) := by
  rw [← part_ended, portsPart, join_eq_ended_entries fun _ hd => portLine_eq hd]
  rfl

/-- The part with the disciplines is made of the lines of their entries. -/
theorem disciplinesPart_eq (m : Module) : m.disciplinesPart
    = Text.ended (Text.Part.lines ⟨"Disciplines", m.interface.disciplines.map (·.line)⟩) := by
  rw [← part_ended, disciplinesPart, join_eq_ended_entries fun d _ => disciplineLine_eq d]
  rfl

/-- The rounding function is made of its lines. -/
theorem ended_roundingLines : Text.ended roundingLines = roundingFunction := by
  decide +kernel

/-- The part with the rounding function is made of its lines, if there is one. -/
theorem functionsPart_eq (m : Module) :
    m.functionsPart = Text.ended (List.flatMap Text.Part.lines
      (if m.needsRounding then [⟨"Build-in functions", roundingLines⟩] else [])) := by
  rw [functionsPart]
  split
  · rw [List.flatMap_singleton, ← part_ended, ended_roundingLines]
  · rfl

/-- The part with the parameters is made of their lines, if there is one. -/
theorem parametersPart_eq (m : Module) :
    m.parametersPart = Text.ended (List.flatMap Text.Part.lines
      (if m.parameters.isEmpty then []
        else [⟨"Parameters", m.parameters.map parameterText⟩])) := by
  rw [← part_ended_unless, parametersPart, join_eq_ended fun p _ => parameterLine_eq p]

/-- The part with the variables is made of the lines of their entries, if there is one. -/
theorem variablesPart_eq (m : Module) :
    m.variablesPart = Text.ended (List.flatMap Text.Part.lines
      (if m.declaredVariables.isEmpty then []
        else [⟨"Variables", m.interface.types.map (·.line)⟩])) := by
  rw [← part_ended_unless, variablesPart, join_eq_ended_entries fun v _ => variableLine_eq v]
  rfl

/-- **The text of a module** consists of its lines above the analog block and of that block. -/
theorem parts_eq (m : Module) : ∃ back, m.parts
    = Text.ended (m.headerLines ++ m.textParts.flatMap Text.Part.lines)
      ++ ("\n" ++ Text.banner "Analog block" ++ back) := by
  obtain ⟨back, hanalog⟩ : ∃ back, m.analogPart = "\n" ++ Text.banner "Analog block" ++ back :=
    ⟨_, rfl⟩
  refine ⟨back, ?_⟩
  rw [parts, textParts, m.headerPart_eq, m.declarationPart_eq, m.portsPart_eq,
    m.disciplinesPart_eq, m.functionsPart_eq, m.parametersPart_eq, m.variablesPart_eq, hanalog]
  rw [List.flatMap_append, List.flatMap_append, List.flatMap_append, List.flatMap_cons,
    List.flatMap_cons, List.flatMap_singleton, Text.ended_append, Text.ended_append,
    Text.ended_append, Text.ended_append, Text.ended_append, Text.ended_append]
  simp only [String.append_assoc]

/-! ### Reading an emitted module -/

/-- The titles of the parts. -/
def titles : List String :=
  ["Module declaration", "Ports", "Disciplines", "Build-in functions", "Parameters", "Variables"]

/-- All titles can be read. -/
theorem legible_titles : ∀ t ∈ "Analog block" :: titles, Text.Legible t := by
  have htitles : ∀ t ∈ "Analog block" :: titles,
      t.length ≤ 70 ∧ ∀ c ∈ t.toList, c ≠ '\n' ∧ c ≠ ',' := by
    decide
  exact fun t ht => Text.legible_of_length (htitles t ht).1 (htitles t ht).2

/-- The variables are found by their title, if there are any. -/
theorem find?_variables (m : Module) : m.textParts.find? (·.title == "Variables")
    = if m.declaredVariables.isEmpty then none
      else some ⟨"Variables", m.interface.types.map (·.line)⟩ := by
  unfold textParts
  split_ifs <;> rfl

/-- The lines of the rounding function are plain. -/
theorem plain_roundingLines : ∀ l ∈ roundingLines, Text.Plain l := by
  have hlines : ∀ l ∈ roundingLines, ('\n' ∉ l.toList ∧ l.toList.getLast? ≠ some '\r') ∧
      ',' ∉ l.toList ∧ Text.title? l = none ∧ l ≠ "" := by
    decide
  intro l hl
  obtain ⟨⟨hfeed, hend⟩, hcomma, htitle, hne⟩ := hlines l hl
  exact Text.Firm.plain ⟨⟨hfeed, hend⟩, .inl hcomma, htitle, hne⟩

/-- What a reader of the text relies on: the names are names of the language, and there is no line
feed in the stamp and in the defaults of the parameters. -/
structure Presentable (m : Module) : Prop where
  name : Name.check m.name = .ok ()
  declared : ∀ x ∈ m.declaredNames, Name.check x = .ok ()
  stamp : '\n' ∉ m.stamp.toList
  defaults : ∀ p ∈ m.parameters, '\n' ∉ p.default.text.toList

namespace Presentable

/-- The names of nets are names of the language. -/
theorem net (h : m.Presentable) {d : NetDeclaration} (hd : d ∈ m.nets) :
    Name.check d.name = .ok () :=
  h.declared _ (List.mem_append_left _ (List.mem_append_left _ (List.mem_map_of_mem hd)))

/-- The names of ports are names of the language. -/
theorem port (h : m.Presentable) {d : NetDeclaration} (hd : d ∈ m.ports) :
    Name.check d.name = .ok () :=
  h.net (List.mem_filter.mp hd).1

/-- The entries of a module have words and names. -/
theorem sound_interface (h : m.Presentable) :
    (∀ e ∈ m.interface.ports, e.Sound) ∧ (∀ e ∈ m.interface.disciplines, e.Sound) ∧
      ∀ e ∈ m.interface.types, e.Sound := by
  have hport (d : Direction) (hd : d.isPort = true) : d.title ∈ Interface.Entry.words := by
    cases d with
    | «internal» => cases hd
    | _ => decide
  have hnet : "electrical" ∈ Interface.Entry.words := by decide
  have hkind (k : Kind) : k.keyword ∈ Interface.Entry.words := by
    cases k <;> decide
  simp only [interface, List.forall_mem_map]
  exact ⟨fun d hd => ⟨hport _ (List.mem_filter.mp hd).2, h.port hd⟩,
    fun d hd => ⟨hnet, h.net hd⟩,
    fun v hv => ⟨hkind _, h.declared _ (List.mem_append_right _ (List.mem_map_of_mem hv))⟩⟩

/-- The lines of the declaration are firm. -/
theorem firm_declarationLines (h : m.Presentable) : ∀ l ∈ m.declarationLines, Text.Firm l := by
  refine Interface.firm_listed (fun c hc => ?_) ?_ ?_
  · rw [Text.run, String.toList_ofList] at hc
    rw [(List.mem_replicate.mp hc).2]
    decide
  · simp only [String.toList_append, List.forall_mem_append]
    exact ⟨⟨by decide, Text.isTame_of_check h.name⟩, by decide⟩
  · rw [List.forall_mem_map]
    exact fun d hd => h.port hd

/-- The tokens of the declaration. -/
theorem mapM_lex_declarationLines (h : m.Presentable) :
    ∃ tokens, m.declarationLines.mapM (fun line => lex line.toList) = some tokens ∧
      Interface.header? tokens.flatten = some (m.name, m.ports.map (·.name)) := by
  have hword : Lexes "module" [.word "module"] := (lexes_word (by decide)).of_eq (by decide)
  have hspace : Sealed " " [] := sealed_spaces (by decide)
  have hopen : Sealed "(" [.mark .openParen] := sealed_mark (by decide) (by decide)
  have hhead : Sealed ("module " ++ m.name ++ "(")
      [.word "module", .word m.name, .mark .openParen] := by
    have htext : "module " ++ m.name ++ "(" = "module" ++ " " ++ (m.name ++ "(") := by
      rw [String.append_assoc]
      rfl
    rw [htext]
    exact (hword.append_sealed hspace (by decide)).append
      ((lexes_name h.name).append_sealed hopen (by decide))
  have halign (n : Nat) : Sealed (Text.run n ' ') [] := by
    refine sealed_spaces fun c hc => ?_
    rw [Text.run, String.toList_ofList] at hc
    rw [(List.mem_replicate.mp hc).2]
    decide
  have hnames : ∀ x ∈ m.ports.map (·.name), Name.check x = .ok () :=
    List.forall_mem_map.mpr fun d hd => h.port hd
  obtain ⟨tokens, htokens, hflatten⟩ :=
    Interface.mapM_lex_listed (halign ("module " ++ m.name ++ "(").length) hhead hnames
  refine ⟨tokens, htokens, ?_⟩
  rw [hflatten]
  exact Interface.header?_eq m.name _

/-- The lines of the header are plain. -/
theorem plain_headerLines (h : m.Presentable) : ∀ l ∈ m.headerLines, Text.Plain l := by
  have hrule : Text.Plain Text.ruleLine :=
    Text.Firm.plain ⟨⟨by decide, by decide⟩, .inl (by decide), by decide, by decide⟩
  have htitle :
      '\n' ∉ ("Verilog-A module `" ++ m.name ++ "` generated by " ++ generator).toList := by
    simp only [String.toList_append, List.mem_append, not_or]
    refine ⟨⟨⟨by decide, fun hc => ?_⟩, by decide⟩, by decide⟩
    exact absurd (Text.isTame_of_check h.name _ hc) (by decide)
  simp only [headerLines, List.forall_mem_cons]
  exact ⟨hrule, Text.plain_boxedLine htitle, Text.plain_boxedLine h.stamp, hrule,
    Text.Firm.plain ⟨⟨by decide, by decide⟩, .inl (by decide), by decide, by decide⟩,
    Text.Firm.plain ⟨⟨by decide, by decide⟩, .inl (by decide), by decide, by decide⟩,
    List.forall_mem_nil _⟩

/-- The lines of the parameters are plain. -/
theorem plain_parameterText (h : m.Presentable) {p : ParameterDeclaration}
    (hp : p ∈ m.parameters) : Text.Plain (parameterText p) := by
  have hname : Name.check p.name = .ok () :=
    h.declared _ (List.mem_append_left _ (List.mem_append_right _ (List.mem_map_of_mem hp)))
  have hend : Text.OneLine ";" := ⟨by decide, by decide⟩
  have hkind (k : Kind) : '\n' ∉ k.keyword.toList := by
    cases k <;> decide
  have hone : Text.OneLine (parameterText p) := by
    refine hend.append (by decide) ?_
    simp only [String.toList_append, List.mem_append, not_or]
    refine ⟨⟨⟨⟨⟨by decide, hkind _⟩, by decide⟩, fun hc => ?_⟩, by decide⟩, h.defaults p hp⟩
    exact absurd (Text.isTame_of_check hname _ hc) (by decide)
  have hopening : Text.Opening "parameter " := ⟨by decide, by decide, by decide⟩
  have htext : parameterText p = "parameter " ++ (p.default.kind.keyword ++ (" " ++ (p.name
      ++ (" = " ++ (p.default.text ++ ";"))))) := by
    unfold parameterText
    simp only [String.append_assoc]
  rw [htext] at hone ⊢
  exact hopening.plain (by decide) hone

/-- The parts of a module have titles that can be read, and plain lines. -/
theorem sound_textParts (h : m.Presentable) :
    ∀ p ∈ m.textParts, p.title ∈ titles ∧ ∀ l ∈ p.content, Text.Plain l := by
  obtain ⟨hports, hdisciplines, htypes⟩ := h.sound_interface
  have hlines {es : List Interface.Entry} (hes : ∀ e ∈ es, e.Sound) :
      ∀ l ∈ es.map (·.line), Text.Plain l := by
    rw [List.forall_mem_map]
    exact fun e he => (Interface.Entry.firm_line (hes e he)).plain
  intro p hp
  simp only [textParts, List.mem_append, List.mem_cons, List.not_mem_nil, or_false,
    List.mem_ite_nil_left, List.mem_ite_nil_right] at hp
  rcases hp with (((rfl | rfl | rfl) | ⟨-, rfl⟩) | ⟨-, rfl⟩) | ⟨-, rfl⟩
  · exact ⟨by simp [titles], fun l hl => (h.firm_declarationLines l hl).plain⟩
  · exact ⟨by simp [titles], hlines hports⟩
  · exact ⟨by simp [titles], hlines hdisciplines⟩
  · exact ⟨by simp [titles], plain_roundingLines⟩
  · exact ⟨by simp [titles], List.forall_mem_map.mpr fun p hp => h.plain_parameterText hp⟩
  · exact ⟨by simp [titles], hlines htypes⟩

/-- A part that wrapping leaves alone is found in the wrapped text as it is. -/
theorem contentOf_eq (h : m.Presentable) (column : Nat) {title : String} {content : List String}
    (hfirm : ∀ l ∈ content, Text.Firm l)
    (hfind : ((m.textParts.find? (·.title == title)).map (·.content)).getD [] = content) :
    Text.contentOf title (Text.above "Analog block" (Text.lines (Text.wrapLines column m.parts)))
      = content := by
  have hother : "Analog block" ∉ titles := by decide
  have hparts := h.sound_textParts
  obtain ⟨back, hback⟩ := m.parts_eq
  rw [hback, Text.contentOf_wrapLines h.plain_headerLines (fun p hp => ?_) (fun p hp heq => ?_)
    (legible_titles _ List.mem_cons_self)]
  · subst hfind
    cases hpart : m.textParts.find? (·.title == title) with
    | none => rfl
    | some p =>
        rw [hpart] at hfirm
        exact Text.flatMap_wrapped_eq hfirm column
  · exact ⟨legible_titles _ (List.mem_cons_of_mem _ (hparts p hp).1), (hparts p hp).2⟩
  · exact hother (heq ▸ (hparts p hp).1)

/-- **The interface of a module** is read back from its wrapped text. -/
theorem read?_wrapLines (h : m.Presentable) (column : Nat) :
    Interface.read? (Text.wrapLines column m.parts) = some m.interface := by
  obtain ⟨hports, hdisciplines, htypes⟩ := h.sound_interface
  have hlines {es : List Interface.Entry} (hes : ∀ e ∈ es, e.Sound) :
      ∀ l ∈ es.map (·.line), Text.Firm l :=
    List.forall_mem_map.mpr fun e he => Interface.Entry.firm_line (hes e he)
  have hvariables : ((m.textParts.find? (·.title == "Variables")).map (·.content)).getD []
      = m.interface.types.map (·.line) := by
    rw [find?_variables]
    split
    case isTrue hempty =>
        rw [interface, List.isEmpty_iff.mp hempty]
        rfl
    case isFalse => rfl
  obtain ⟨tokens, htokens, hheader⟩ := h.mapM_lex_declarationLines
  unfold Interface.read?
  dsimp only
  rw [h.contentOf_eq column h.firm_declarationLines rfl, h.contentOf_eq column (hlines hports) rfl,
    h.contentOf_eq column (hlines hdisciplines) rfl,
    h.contentOf_eq column (hlines htypes) hvariables, htokens,
    Interface.mapM_read?_lines hports, Interface.mapM_read?_lines hdisciplines,
    Interface.mapM_read?_lines htypes]
  simp only [Option.bind_eq_bind, Option.bind_some, hheader]
  rfl

end Presentable

/-! ### Registration -/

/-- Whatever a module was made of, it is presentable, if there is no line feed in what the user may
write as he likes. -/
theorem presentable_after {options : Options} {present name : String} {m₀ : Module}
    (h₀ : Module.new? options present name = .ok m₀) (history : List Operation)
    (hstamp : '\n' ∉ (options.header.resolve present).toList)
    (hdefaults : ∀ p ∈ (m₀.after history).parameters, '\n' ∉ p.default.text.toList) :
    (m₀.after history).Presentable where
  name := by
    have hname : Name.check name = .ok () := by
      unfold new? at h₀
      cases hcheck : Name.check name with
      | ok u => rfl
      | error f =>
          rw [hcheck] at h₀
          cases h₀
    rw [(header_after m₀ history).1, eq_of_new? h₀]
    exact hname
  declared x hx := by
    have hnamed := wellNamed_after h₀ history
    exact hnamed.accepted x (hnamed.perm.mem_iff.mp hx)
  stamp := by
    rw [(header_after m₀ history).2, eq_of_new? h₀]
    exact hstamp
  defaults := hdefaults

/-- **The interface of a module** can be read from its text. For every module that is not poisoned,
whatever it was made of, and for every column at which lines are wrapped: if there is no line feed
in the stamp and in the defaults of the parameters, then the reader finds the names of the ports in
the declaration, and in the parts below a line for each port with its direction and its range, a
line for each net with its range, and a line for each variable with its type. The nets and the
variables are in the order of registration: those of a part of the history come first. -/
theorem interface_read {options : Options} {present name : String} {m₀ : Module}
    (h₀ : Module.new? options present name = .ok m₀) {history : List Operation}
    (hfault : (m₀.after history).fault = none)
    (hstamp : '\n' ∉ (options.header.resolve present).toList)
    (hdefaults : ∀ p ∈ (m₀.after history).parameters, '\n' ∉ p.default.text.toList) :
    (∃ text, (m₀.after history).emit? = .ok text ∧
      Interface.read? text = some (m₀.after history).interface) ∧
    ∀ before rest, history = before ++ rest →
      (m₀.after before).nets <+: (m₀.after history).nets ∧
        (m₀.after before).declaredVariables <+: (m₀.after history).declaredVariables := by
  have hpresentable := presentable_after h₀ history hstamp hdefaults
  refine ⟨⟨_, emit?_eq hfault, hpresentable.read?_wrapLines _⟩, ?_⟩
  rintro before rest rfl
  rw [after_append]
  have hfirst := (m₀.after before).declaredFirst_after rest
  exact ⟨hfirst.nets, hfirst.declaredVariables⟩

/-- A module whose stamp and one of whose defaults are broken at every place where they can be. -/
theorem interface_read_broken :
    let options : Options := { Options.reproducible "f(x), g(x), h" with wrapColumn := 0 }
    let history : List Operation :=
      [.bus "d" 4 .output, .net "n" .internal, .namedVariable "on" ⟨_, .bool true⟩,
        .parameter "gain" ⟨_, .call₂ .max (.call .exp (.ident "x")) (.ident "y")⟩,
        .net "a" .inout]
    ∃ m₀ text, Module.new? options "" "dut" = .ok m₀ ∧ (m₀.after history).emit? = .ok text ∧
      Interface.read? text = some
        { name := "dut"
          header := ["d", "a"]
          ports := [⟨"output", some 3, "d"⟩, ⟨"inout", none, "a"⟩]
          disciplines := [⟨"electrical", some 3, "d"⟩, ⟨"electrical", none, "n"⟩,
            ⟨"electrical", none, "a"⟩]
          types := [⟨"integer", none, "on"⟩] } := by
  intro options history
  obtain ⟨m₀, h₀⟩ : ∃ m₀, Module.new? options "" "dut" = .ok m₀ := ⟨_, rfl⟩
  have hfault : (m₀.after history).fault = none := by
    rw [eq_of_new? h₀, ← Option.isNone_iff_eq_none]
    decide +kernel
  have hdefaults : ∀ p ∈ (m₀.after history).parameters, '\n' ∉ p.default.text.toList := by
    rw [eq_of_new? h₀]
    decide +kernel
  obtain ⟨⟨text, hemit, hread⟩, -⟩ := interface_read h₀ hfault (by decide) hdefaults
  refine ⟨m₀, text, h₀, hemit, hread.trans ?_⟩
  rw [eq_of_new? h₀]
  decide +kernel

end Module

end Stimulus
