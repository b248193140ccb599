import Stimulus.Command
import Stimulus.Proofs.Grammar.Lexeme
import Stimulus.Proofs.SideFiles.Reading

/-!
# Quoted texts

Paths, modes and formats are written as string literals, in which some characters stand behind a
backslash. A reader that knows this, and nothing else about the text, finds the end of the literal
where it was put, and reads the text that was meant. So nothing in a text can end its literal early,
be it a quote, or a backslash in front of the quote at the end.

## Main definitions

* `Text.closing?`: where the literal at the front of a text ends.
* `Text.unescaped`: the text that the content of a literal stands for.
* `Command.beforeFormat`, `Command.afterFormat`: what surrounds the format of a printing command.

## Main results

* `Text.unescaped_quote`, `Text.closing?_quote`: what a literal stands for, and where it ends.
* `Text.pieces?_quote`: a literal is a piece of its own in whatever text it stands.
* `Text.quote_delimits`: the literal of a text, by itself and in the calls that have one.
-/

namespace Stimulus

namespace Text

variable {front back text : List Char} {s : String}

/-! ### The content of a literal -/

/-- The text that the content of a string literal stands for. -/
def unescaped : List Char → List Char
  | [] => []
  | '\\' :: c :: rest => unescape c :: unescaped rest
  | c :: rest => c :: unescaped rest

/-- A character that is not a backslash stands for itself. -/
theorem unescaped_cons {c : Char} (hc : c ≠ '\\') (rest : List Char) :
    unescaped (c :: rest) = c :: unescaped rest := by
  rw [unescaped]
  exact fun _ _ h => absurd h hc

/-- **What is written for a text** stands for the text. -/
theorem unescaped_escape (text : List Char) : unescaped (text.flatMap escape) = text := by
  have hmeant : ∀ x ∈ escapes, unescape x.2 = x.1 := by decide
  induction text with
  | nil => rfl
  | cons c text ih =>
      rw [List.flatMap_cons]
      rcases escape_cases c with ⟨h, -, hbackslash⟩ | ⟨d, hd, h⟩
      · rw [h, List.singleton_append, unescaped_cons hbackslash, ih]
      · rw [h, List.cons_append, List.singleton_append, unescaped, ih, hmeant _ hd]

/-- What is written for a text has neither line feeds nor tabs. -/
theorem notMem_escape {c : Char} (hc : c = '\n' ∨ c = '\t') : c ∉ text.flatMap escape := by
  have hwritten : ∀ x ∈ escapes, x.2 ≠ '\n' ∧ x.2 ≠ '\t' := by decide
  have hkept : ∀ d : Char, escape d = [d] → d ≠ '\n' ∧ d ≠ '\t' := by
    refine fun d h => ⟨?_, ?_⟩ <;> rintro rfl <;> exact absurd h (by decide)
  rw [List.mem_flatMap]
  rintro ⟨d, -, hmem⟩
  rcases escape_cases d with ⟨h, -⟩ | ⟨e, he, h⟩
  · obtain rfl := List.mem_singleton.mp (h ▸ hmem)
    rcases hc with rfl | rfl
    · exact (hkept _ h).1 rfl
    · exact (hkept _ h).2 rfl
  · rw [h, List.mem_pair] at hmem
    rcases hmem with rfl | rfl
    · exact absurd hc (by decide)
    · exact hc.elim (hwritten _ he).1 (hwritten _ he).2

/-- The characters of a literal. -/
theorem toList_quote (s : String) :
    (quote s).toList = '"' :: (s.toList.flatMap escape ++ ['"']) := by
  rw [quote, String.toList_ofList, List.cons_append]

/-- There are neither line feeds nor tabs in a literal. -/
theorem notMem_quote {c : Char} (hc : c = '\n' ∨ c = '\t') : c ∉ (quote s).toList := by
  have hquote : c ≠ '"' := by
    rintro rfl
    exact absurd hc (by decide)
  rw [toList_quote, List.mem_cons, List.mem_append, List.mem_singleton]
  rintro (h | h | h)
  · exact hquote h
  · exact notMem_escape hc h
  · exact hquote h

/-- **The content of a literal** stands for the text that the literal was made from. -/
theorem unescaped_quote (s : String) :
    unescaped ((quote s).toList.drop 1).dropLast = s.toList := by
  rw [toList_quote, List.drop_succ_cons, List.drop_zero, List.dropLast_concat, unescaped_escape]

/-- Different texts have different literals. -/
theorem quote_inj {s t : String} (h : quote t = quote s) : t = s := by
  refine String.toList_inj.mp ?_
  rw [← unescaped_quote t, h, unescaped_quote]

/-! ### The end of a literal -/

/-- The position of the quote that ends the string literal at the front of a text, counted from the
quote that starts it. -/
def closing? : List Char → Option Nat
  | '"' :: rest => (Grammar.literal? rest).map fun (content, _) => content.length + 1
  | _ => none

/-- **A literal ends** at its last character, whatever stands behind it. -/
theorem closing?_quote (s : String) (rest : List Char) :
    closing? ((quote s).toList ++ rest) = some ((quote s).length - 1) := by
  have hread := (Grammar.isContent_escape s.toList).literal?_eq rest
  have hlength : (quote s).length = (s.toList.flatMap escape).length + 2 := by
    rw [← String.length_toList, toList_quote, List.length_cons, List.length_append,
      List.length_singleton]
  rw [toList_quote, List.cons_append, List.append_assoc, List.singleton_append, closing?, hread,
    hlength]
  rfl

/-- A quote behind pieces that are complete starts a literal. -/
theorem piecesFrom_append_quote {spot : Spot} {before : List Char} {pieces : List (List Char)}
    (h : piecesFrom spot before front = some pieces) :
    piecesFrom spot before (front ++ '"' :: back)
      = (piecesFrom .literal [] back).map (pieces ++ ·) := by
  induction front generalizing spot before pieces with
  | nil =>
      cases spot with
      | code =>
          obtain rfl := Option.some.inj h
          rw [List.nil_append, piecesFrom, if_pos rfl]
          rfl
      | literal => cases h
      | guarded => cases h
  | cons c front ih =>
      -- At a quote the piece in front of it is complete, and the others are found behind it.
      have hpiece {next : Spot} {piece : List Char}
          (h : (piecesFrom next [] front).map (piece :: ·) = some pieces) :
          (piecesFrom next [] (front ++ '"' :: back)).map (piece :: ·)
            = (piecesFrom .literal [] back).map (pieces ++ ·) := by
        obtain ⟨more, hmore, rfl⟩ := Option.map_eq_some_iff.mp h
        rw [ih hmore, Option.map_map]
        rfl
      rw [List.cons_append, piecesFrom.eq_def]
      rw [piecesFrom.eq_def] at h
      cases spot with
      | code =>
          dsimp only at h ⊢
          split
          case isTrue hc =>
              rw [if_pos hc] at h
              exact hpiece h
          case isFalse hc =>
              rw [if_neg hc] at h
              exact ih h
      | literal =>
          dsimp only at h ⊢
          split
          case isTrue hc =>
              rw [if_pos hc] at h
              exact hpiece h
          case isFalse hc =>
              rw [if_neg hc] at h
              split
              case isTrue hbackslash =>
                  rw [if_pos hbackslash] at h
                  exact ih h
              case isFalse hbackslash =>
                  rw [if_neg hbackslash] at h
                  exact ih h
      | guarded => exact ih h

/-- **A literal is a piece of its own**, with the text it was made from, between the pieces of what
stands in front of it and behind it. -/
theorem pieces?_quote {front back : String} {ps qs : List String} (hfront : pieces? front = some ps)
    (hback : pieces? back = some qs) :
    pieces? (front ++ quote s ++ back) = some (ps ++ s :: qs) := by
  obtain ⟨before, hbefore, rfl⟩ := Option.map_eq_some_iff.mp hfront
  obtain ⟨after, hafter, rfl⟩ := Option.map_eq_some_iff.mp hback
  have hliteral : piecesFrom .literal [] (s.toList.flatMap escape ++ '"' :: back.toList)
      = some (s.toList :: after) := by
    rw [piecesFrom_escape, List.append_nil, piecesFrom_literal_quote, hafter]
    rfl
  have htext : (front ++ quote s ++ back).toList
      = front.toList ++ '"' :: (s.toList.flatMap escape ++ '"' :: back.toList) := by
    rw [String.toList_append, String.toList_append, toList_quote]
    simp
  rw [pieces?, htext, piecesFrom_append_quote hbefore, hliteral]
  simp

end Text

/-! ### Calls with literals -/

/-- What stands in front of the format of a printing command. -/
def Command.beforeFormat (task : PrintTask) : Option (Expr .integer) → String
  | none => "$" ++ task.name ++ "("
  | some file => "$f" ++ task.name ++ "(" ++ file.text ++ ", "

/-- What stands behind the format of a printing command. -/
def Command.afterFormat (arguments : List Value) : String :=
  String.join (arguments.map fun v => ", " ++ v.text) ++ ")"

/-- Arguments behind a first one. -/
theorem intercalate_cons_eq (separator first : String) (rest : List String) :
    String.intercalate separator (first :: rest)
      = first ++ String.join (rest.map (separator ++ ·)) := by
  induction rest generalizing first with
  | nil => simp
  | cons next rest ih =>
      rw [String.intercalate_cons_cons, ih, List.map_cons, String.join_cons, String.append_assoc,
        String.append_assoc]

/-- A file that is opened without a mode is its path with what surrounds it. -/
theorem Expr.text_openFile (path : String) :
    (openFile path none).text = "$fopen(" ++ Text.quote path ++ ")" := by
  rw [text, callText, intercalate_cons_eq]
  simp

/-- A file that is opened with a mode is its path and the mode with what surrounds them. -/
theorem Expr.text_openFile_mode (path mode : String) :
    (openFile path (some mode)).text
      = "$fopen(" ++ Text.quote path ++ (", " ++ Text.quote mode ++ ")") := by
  rw [text, callText, String.intercalate_cons_cons, intercalate_cons_eq]
  simp [String.append_assoc]

/-- A printing command is its format with what surrounds it. -/
theorem Command.text_print (task : PrintTask) (file : Option (Expr .integer)) (format : String)
    (arguments : List Value) :
    (print task file format arguments).text
      = beforeFormat task file ++ Text.quote format ++ afterFormat arguments := by
  cases file with
  | none =>
      rw [text, Expr.callText, intercalate_cons_eq, beforeFormat, afterFormat, List.map_map]
      simp only [String.append_assoc, Function.comp_def]
  | some file =>
      rw [text, Expr.callText, String.intercalate_cons_cons, intercalate_cons_eq, beforeFormat,
        afterFormat, List.map_map]
      simp only [String.append_assoc, Function.comp_def]

namespace Text

/-- **The literal of a text.** There is neither a line feed nor a tab in it. Read from its first
quote on, it ends at its last character, whatever stands behind it, and its content stands for the
text, so that different texts have different literals. The path and the mode of a file that is
opened and the format of a printing command are read as they were given. -/
theorem quote_delimits (s : String) :
    ('\n' ∉ (quote s).toList ∧ '\t' ∉ (quote s).toList) ∧
      (∀ rest, closing? ((quote s).toList ++ rest) = some ((quote s).length - 1)) ∧
      (quote s).toList.head? = some '"' ∧
      unescaped ((quote s).toList.drop 1).dropLast = s.toList ∧
      (∀ t, quote t = quote s → t = s) ∧
      pieces? (Expr.openFile s none).text = some ["$fopen(", s, ")"] ∧
      (∀ mode, pieces? (Expr.openFile s (some mode)).text
        = some ["$fopen(", s, ", ", mode, ")"]) ∧
      ∀ task file arguments ps qs, pieces? (Command.beforeFormat task file) = some ps →
        pieces? (Command.afterFormat arguments) = some qs →
          pieces? (Command.print task file s arguments).text = some (ps ++ s :: qs) := by
  have hopen : pieces? "$fopen(" = some ["$fopen("] := by decide
  have hcomma : pieces? ", " = some [", "] := by decide
  have hclose : pieces? ")" = some [")"] := by decide
  refine ⟨⟨notMem_quote (.inl rfl), notMem_quote (.inr rfl)⟩, closing?_quote s, ?_,
    unescaped_quote s, fun t => quote_inj, ?_, fun mode => ?_,
    fun task file arguments ps qs hps hqs => ?_⟩
  · rw [toList_quote]
    rfl
  · rw [Expr.text_openFile, pieces?_quote hopen hclose]
    rfl
  · rw [Expr.text_openFile_mode, pieces?_quote hopen (pieces?_quote hcomma hclose)]
    rfl
  · rw [Command.text_print, pieces?_quote hps hqs]

/-- A format with a quote and a backslash at its end, printed to a file whose path ends in a
backslash. -/
theorem quote_delimits_print :
    let file : Expr .integer := .openFile "C:\\log\\" none
    pieces? (Command.print .strobe (some file) "\"x\" = \\" [⟨.real, .ident "x"⟩]).text
      = some ["$fstrobe($fopen(", "C:\\log\\", "), ", "\"x\" = \\", ", x)"] := by
  intro file
  have hfile : pieces? (Command.beforeFormat .strobe (some file))
      = some ["$fstrobe($fopen(", "C:\\log\\", "), "] := by decide
  have harguments : pieces? (Command.afterFormat [⟨.real, .ident "x"⟩]) = some [", x)"] := by decide
  obtain ⟨-, -, -, -, -, -, -, hprint⟩ := quote_delimits "\"x\" = \\"
  exact hprint _ _ _ _ _ hfile harguments

end Text

end Stimulus
