import Stimulus.Proofs.Grammar.Numeral
import Stimulus.Proofs.Interface.Parts

/-!
# Reading interfaces

The interface of a module is what it has to do with its surroundings: the names of its ports, and
what is declared for ports, nets and variables. The reader of this file knows under which headings
these stand and what the tokens of the language are, but nothing about the module.

Apart from the list of the ports, every declaration is a line, and the reader takes the lines of a
part one by one. So it does not read a declaration that has been broken, and it is shown for the
lines of declarations that they are not: lines are broken only between a closing parenthesis and a
comma, and there is no line here that has both.

## Main definitions

* `Interface`, `Interface.Entry`: an interface and what is declared in it.
* `Interface.read?`: how an interface is read from a text.
* `Interface.Entry.line`, `Interface.listed`: the lines of declarations.

## Main results

* `Text.firm_append`: the lines of declarations are left alone by wrapping.
* `Interface.Entry.read?_line`: the line of a declaration is read back.
* `Interface.mapM_lex_listed`, `Interface.header?_eq`: so is the list of the ports.
-/

namespace Stimulus

open Grammar

/-! ### The lines of declarations -/

namespace Text

/-- The characters of declarations, up to the ends of their lines. -/
def isTame (c : Char) : Bool :=
  Name.isRest c || [' ', '(', '[', ':', ']'].contains c

/-- What can stand at the end of a firm line. -/
def ends : List String :=
  [",", ");", ";"]

/-- The lines of declarations are firm. -/
theorem firm_append {front back : String} (hfront : ∀ c ∈ front.toList, isTame c = true)
    (hback : back ∈ ends) : Firm (front ++ back) := by
  have hnone {c : Char} (hc : isTame c = false) (h : ∀ s ∈ ends, c ∉ s.toList) :
      c ∉ (front ++ back).toList := by
    rw [String.toList_append, List.mem_append, not_or]
    exact ⟨fun hmem => Bool.false_ne_true (hc.symm.trans (hfront c hmem)), h back hback⟩
  have hend : ∀ s ∈ ends, s.toList ≠ [] := by decide
  have hlast : ∀ s ∈ ends, s.toList.getLast? ≠ some '\r' := by decide
  refine ⟨⟨hnone (by decide) (by decide), ?_⟩, ?_, title?_eq_none fun rest heq => ?_, ?_⟩
  · rw [String.toList_append, List.getLast?_append_of_ne_nil _ (hend back hback)]
    exact hlast back hback
  · have hmarks : ∀ s ∈ ends, ',' ∉ s.toList ∨ ')' ∉ s.toList := by decide
    have hother {c : Char} (hc : isTame c = false) : c ∉ front.toList :=
      fun hmem => Bool.false_ne_true (hc.symm.trans (hfront c hmem))
    rw [String.toList_append, List.mem_append, List.mem_append, not_or, not_or]
    exact (hmarks back hback).imp (⟨hother (by decide), ·⟩) (⟨hother (by decide), ·⟩)
  · have hslash : '/' ∉ (front ++ back).toList := hnone (by decide) (by decide)
    rw [heq] at hslash
    exact hslash List.mem_cons_self
  · intro heq
    have hnil := congrArg String.toList heq
    rw [String.toList_append] at hnil
    exact hend back hback (List.append_eq_nil_iff.mp hnil).2

/-- Identifiers are tame. -/
theorem isTame_of_check {name : String} (h : Name.check name = .ok ()) :
    ∀ c ∈ name.toList, isTame c = true :=
  fun _ hc => by rw [isTame, Name.isRest_of_isIdentifier (Name.check_eq_ok.mp h).1 hc, Bool.true_or]

end Text

/-! ### Reading an interface -/

/-- An **entry** of an interface: the word in front of a declared name, the upper index of its
range, if it has one, and the name. The lower index is 0. -/
structure Interface.Entry where
  word : String
  upper : Option Nat
  name : String
  deriving DecidableEq, Repr

/-- The **interface** of a module: its name, the ports that are listed behind it, and the
declarations of the directions of ports, of the disciplines of nets and of the types of
variables. -/
structure Interface where
  name : String
  header : List String
  ports : List Interface.Entry
  disciplines : List Interface.Entry
  types : List Interface.Entry
  deriving DecidableEq, Repr

namespace Interface

/-- Reads the tokens of an entry. -/
def Entry.ofTokens? : List Token → Option Entry
  | [.word word, .word name, .mark .semicolon] => some ⟨word, none, name⟩
  | [.word word, .mark .openBracket, .number upper, .mark .colon, .number lower,
      .mark .closeBracket, .word name, .mark .semicolon] =>
    match Numeral.read upper, Numeral.read lower with
    | .integer upper, .integer 0 => some ⟨word, some upper, name⟩
    | _, _ => none
  | _ => none

/-- Reads a line with an entry. -/
def Entry.read? (line : String) : Option Entry :=
  (lex line.toList).bind ofTokens?

/-- Reads names with commas between them, up to the end of the list. -/
def names? : List Token → Option (List String)
  | [.word name, .mark .closeParen, .mark .semicolon] => some [name]
  | .word name :: .mark .comma :: rest => (names? rest).map (name :: ·)
  | _ => none

/-- Reads the declaration of a module: its name and the list of its ports, which may be empty. -/
def header? : List Token → Option (String × List String)
  | [.word word, .word name, .mark .openParen, .mark .closeParen, .mark .semicolon] =>
    if word = "module" then some (name, []) else none
  | .word word :: .word name :: .mark .openParen :: rest =>
    if word = "module" then (names? rest).map (name, ·) else none
  | _ => none

/-- **Reads an interface**, above the analog block of a text. Apart from the declaration, every line
of a part is read by itself. -/
def read? (text : String) : Option Interface := do
  let content (title : String) := Text.contentOf title (Text.above "Analog block" (Text.lines text))
  let tokens ← (content "Module declaration").mapM fun line => lex line.toList
  let (name, header) ← header? tokens.flatten
  let ports ← (content "Ports").mapM Entry.read?
  let disciplines ← (content "Disciplines").mapM Entry.read?
  let types ← (content "Variables").mapM Entry.read?
  return ⟨name, header, ports, disciplines, types⟩

/-! ### The lines of entries -/

namespace Entry

/-- The range of an entry. -/
def range : Option Nat → String
  | none => ""
  | some upper => "[" ++ toString upper ++ ":0] "

/-- The line of an entry. -/
def line (e : Entry) : String :=
  e.word ++ " " ++ range e.upper ++ e.name ++ ";"

/-- The words in front of declared names. -/
def words : List String :=
  ["input", "output", "inout", "electrical", "real", "integer"]

/-- An entry with a word and a name of the language. -/
structure Sound (e : Entry) : Prop where
  word : e.word ∈ words
  name : Name.check e.name = .ok ()

/-- The tokens of a range. -/
def rangeTokens : Option Nat → List Token
  | none => []
  | some upper => [.mark .openBracket, .number (toString upper), .mark .colon, .number "0",
      .mark .closeBracket]

/-- A range has its tokens. -/
theorem sealed_range (upper : Option Nat) : Sealed (range upper) (rangeTokens upper) := by
  cases upper with
  | none => exact sealed_empty
  | some n =>
      have hopen : Sealed "[" [.mark .openBracket] := sealed_mark (by decide) (by decide)
      have hcolon : Sealed ":" [.mark .colon] := sealed_mark (by decide) (by decide)
      have hclose : Sealed "]" [.mark .closeBracket] := sealed_mark (by decide) (by decide)
      have hspace : Sealed " " [] := sealed_spaces (by decide)
      have hnumber := (isNumber_natural n).lexes.append_sealed hcolon (by decide)
      have hzero := (isNumber_natural 0).lexes.append_sealed (hclose.append hspace) (by decide)
      have htext : range (some n) = "[" ++ (toString n ++ ":" ++ ("0" ++ ("]" ++ " "))) := by
        rw [range]
        simp [String.append_assoc]
      rw [htext]
      exact hopen.append (hnumber.append hzero)

/-- **The line of an entry** is read back. -/
theorem read?_line {e : Entry} (h : e.Sound) : read? e.line = some e := by
  have hwords : ∀ w ∈ words, IsWord w ∧ Token.ofWord w = .word w := by decide
  have hspace : Sealed " " [] := sealed_spaces (by decide)
  have hend : Sealed ";" [.mark .semicolon] := sealed_mark (by decide) (by decide)
  have hfront := (lexes_word (hwords _ h.word).1).append_sealed hspace (by decide)
  have hback := (lexes_name h.name).append_sealed hend (by decide)
  have hlex := ((hfront.append (sealed_range e.upper)).append hback).lexes.lex_eq
  have htext : e.line = e.word ++ " " ++ range e.upper ++ (e.name ++ ";") := by
    rw [line, String.append_assoc]
  rw [read?, htext, hlex, Option.bind_some, (hwords _ h.word).2]
  obtain ⟨word, upper, name⟩ := e
  cases upper with
  | none => rfl
  | some n =>
      have hread : Numeral.read "0" = .integer 0 := Numeral.read_toString 0
      change (match Numeral.read (toString n), Numeral.read "0" with
        | .integer upper, .integer 0 => some ⟨word, some upper, name⟩
        | _, _ => none) = some (⟨word, some n, name⟩ : Entry)
      rw [Numeral.read_toString, hread]
      rfl

end Entry

/-- The line of an entry is firm. -/
theorem Entry.firm_line {e : Entry} (h : e.Sound) : Text.Firm e.line := by
  have hwords : ∀ w ∈ words, ∀ c ∈ w.toList, Text.isTame c = true := by decide
  have hrange : ∀ c ∈ (range e.upper).toList, Text.isTame c = true := by
    cases e.upper with
    | none => exact List.forall_mem_nil _
    | some n =>
        rw [range, String.toList_append, String.toList_append, List.forall_mem_append,
          List.forall_mem_append]
        refine ⟨⟨by decide, fun c hc => ?_⟩, by decide⟩
        rw [Text.isTame, Name.isRest_of_mem_toString hc, Bool.true_or]
  refine Text.firm_append ?_ (by decide)
  simp only [String.toList_append, List.forall_mem_append]
  exact ⟨⟨⟨hwords _ h.word, by decide⟩, hrange⟩, Text.isTame_of_check h.name⟩

/-- **The lines of entries** are read back. -/
theorem mapM_read?_lines {es : List Entry} (h : ∀ e ∈ es, e.Sound) :
    (es.map Entry.line).mapM Entry.read? = some es := by
  induction es with
  | nil => rfl
  | cons e es ih =>
      rw [List.forall_mem_cons] at h
      rw [List.map_cons, List.mapM_cons, Entry.read?_line h.1, ih h.2]
      rfl

/-! ### The lines of the declaration -/

/-- Names with commas between them, each on a line of its own. What stands in front of the first
one is given, and so is what stands in front of the others. -/
def listed (align : String) : String → List String → List String
  | front, [] => [front ++ ");"]
  | front, [name] => [front ++ name ++ ");"]
  | front, name :: next :: rest => (front ++ name ++ ",") :: listed align align (next :: rest)

/-- The tokens behind the opening parenthesis of a list of names. -/
def listTokens : List String → List Token
  | [] => [.mark .closeParen, .mark .semicolon]
  | [name] => [.word name, .mark .closeParen, .mark .semicolon]
  | name :: next :: rest => .word name :: .mark .comma :: listTokens (next :: rest)

/-- The text of the lines. -/
theorem ended_listed (align front : String) (names : List String) :
    Text.ended (listed align front names)
      = front ++ String.intercalate (",\n" ++ align) names ++ ");\n" := by
  induction names generalizing front with
  | nil => simp [listed, Text.ended, String.append_assoc]
  | cons name names ih =>
      cases names with
      | nil => simp [listed, Text.ended, String.append_assoc]
      | cons next rest =>
          rw [listed, Text.ended_cons, ih, String.intercalate_cons_cons]
          simp [String.append_assoc]

/-- **The lines of a list** have its tokens. -/
theorem mapM_lex_listed {align front : String} {ts : List Token} {names : List String}
    (halign : Sealed align []) (hfront : Sealed front ts) (h : ∀ x ∈ names, Name.check x = .ok ()) :
    ∃ tokens, (listed align front names).mapM (fun line => lex line.toList) = some tokens ∧
      tokens.flatten = ts ++ listTokens names := by
  have hclose : Sealed ");" [.mark .closeParen, .mark .semicolon] :=
    (sealed_mark (s := ")") (by decide) (by decide)).append (sealed_mark (s := ";") (by decide)
      (by decide))
  have hcomma : Sealed "," [.mark .comma] := sealed_mark (by decide) (by decide)
  induction names generalizing front ts with
  | nil =>
      refine ⟨[ts ++ listTokens []], ?_, by simp⟩
      rw [listed, List.mapM_cons, (hfront.append hclose).lexes.lex_eq]
      rfl
  | cons name names ih =>
      rw [List.forall_mem_cons] at h
      have hname (s : String) (us : List Token) (hs : Sealed s us) (hsep : Separated s) :
          lex (front ++ name ++ s).toList = some (ts ++ (.word name :: us)) := by
        rw [String.append_assoc]
        exact (hfront.append ((lexes_name h.1).append_sealed hs hsep)).lexes.lex_eq
      cases names with
      | nil =>
          refine ⟨[ts ++ listTokens [name]], ?_, by simp⟩
          rw [listed, List.mapM_cons, hname _ _ hclose (by decide)]
          rfl
      | cons next rest =>
          obtain ⟨tokens, htokens, hflatten⟩ := ih halign h.2
          refine ⟨(ts ++ [.word name, .mark .comma]) :: tokens, ?_, ?_⟩
          · rw [listed, List.mapM_cons, hname _ _ hcomma (by decide), htokens]
            rfl
          · rw [List.flatten_cons, hflatten, listTokens]
            simp

/-- The tokens of a list of names are read back. -/
theorem names?_listTokens {names : List String} (h : names ≠ []) :
    names? (listTokens names) = some names := by
  induction names with
  | nil => exact absurd rfl h
  | cons name names ih =>
      cases names with
      | nil => rfl
      | cons next rest =>
          rw [listTokens, names?, ih (List.cons_ne_nil _ _)]
          rfl

/-- **The tokens of a declaration** are read back. -/
theorem header?_eq (name : String) (names : List String) :
    header? (.word "module" :: .word name :: .mark .openParen :: listTokens names)
      = some (name, names) := by
  cases names with
  | nil => rfl
  | cons first rest =>
      have hread := names?_listTokens (List.cons_ne_nil first rest)
      have hheader : header? (.word "module" :: .word name :: .mark .openParen
          :: listTokens (first :: rest))
            = (names? (listTokens (first :: rest))).map (name, ·) := by
        cases rest <;> rfl
      rw [hheader, hread]
      rfl

/-- The lines of a list are firm. -/
theorem firm_listed {align front : String} {names : List String}
    (halign : ∀ c ∈ align.toList, Text.isTame c = true)
    (hfront : ∀ c ∈ front.toList, Text.isTame c = true) (h : ∀ x ∈ names, Name.check x = .ok ()) :
    ∀ l ∈ listed align front names, Text.Firm l := by
  induction names generalizing front with
  | nil => exact List.forall_mem_singleton.mpr (Text.firm_append hfront (by decide))
  | cons name names ih =>
      rw [List.forall_mem_cons] at h
      have hline : ∀ c ∈ (front ++ name).toList, Text.isTame c = true := by
        rw [String.toList_append, List.forall_mem_append]
        exact ⟨hfront, Text.isTame_of_check h.1⟩
      cases names with
      | nil => exact List.forall_mem_singleton.mpr (Text.firm_append hline (by decide))
      | cons next rest =>
          exact List.forall_mem_cons.mpr ⟨Text.firm_append hline (by decide), ih halign h.2⟩

end Interface

end Stimulus
