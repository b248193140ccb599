import Stimulus.Toml.Quoted
import Stimulus.Toml.Table

/-!
# The lines of a TOML file

A file is a list of **lines**: a field with its value, or the header of a table or of a further
item of an array of tables. Only a value may run over several lines of text, if it is bracketed or
quoted three times. Brackets are nested to a bounded depth and a key has a bounded number of names,
which also bounds the recursion of the readers.

## Main definitions

* `Toml.key`, `Toml.value`
* `Toml.Line`, `Toml.lines?`
-/

namespace Stimulus.Toml

open Text

/-- How deep brackets are nested at most, and how many names a key has at most. -/
def nestingLimit : Nat :=
  80

/-! ### Keys -/

/-- Whether a character may stand in a key without quotes. -/
def isKeyChar (c : Char) : Bool :=
  c.isAlphanum || c == '-' || c == '_'

/-- One name of a key. -/
def name : Reader String := lineText <|> do
  let cs ← Reader.takeWhile isKeyChar
  guard (cs ≠ [])
  return String.ofList cs

/-- A key with at most `depth` dots. -/
def keyWithin : Nat → Reader Key
  | 0 => return ⟨[], ← name⟩
  | depth + 1 => do
    let first ← name
    let more ← optional (do spaces; Reader.char '.'; spaces)
    if more.isSome then
      let key ← keyWithin depth
      return { key with path := first :: key.path }
    else return ⟨[], first⟩

/-- A key. Between `n` names stand `n - 1` dots. -/
def key : Reader Key :=
  keyWithin (nestingLimit - 1)

/-! ### Values -/

/-- A word. A date may be followed by a space and a time. -/
def word : Reader Value := do
  let cs ← Reader.takeWhile isWordChar
  match ← get with
  | ' ' :: c :: rest =>
    if c.isDigit ∧ (date.all? cs).isSome then
      set (c :: rest)
      let time ← Reader.takeWhile isWordChar
      StateT.lift (Value.ofWord? (cs ++ ' ' :: time))
    else StateT.lift (Value.ofWord? cs)
  | _ => StateT.lift (Value.ofWord? cs)

/-- A value without brackets. -/
def scalar : Reader Value :=
  Value.text <$> quotedText <|> word

/-- The items before a closing bracket, which is taken too. A comma stands between two items, and
may stand after the last one. Since readers only take from the front, the text after a comma is
always shorter than the whole; the test makes this known to the recursion. -/
def itemsUntil {α : Type} (close : Char) (item : Reader α) (s : List Char) :
    Option (List α × List Char) :=
  match (gaps *> Reader.char close) s with
  | some (_, rest) => some ([], rest)
  | none =>
    match (gaps *> item <* gaps) s with
    | none => none
    | some (a, rest) =>
      match rest with
      | [] => none
      | c :: rest =>
        if c = close then some ([a], rest)
        else if c = ',' ∧ rest.length < s.length then do
          let (others, rest) ← itemsUntil close item rest
          return (a :: others, rest)
        else none
termination_by s.length

/-- A key and its value, with the given blanks on either side of the equals sign. -/
def field (blanks : Reader Unit) (value : Reader Value) : Reader (Key × Value) := do
  let key ← key
  blanks
  Reader.char '='
  blanks
  return (key, ← value)

/-- The table between braces, given its fields. -/
def braced? (fields : List (Key × Value)) : Option Value :=
  (Value.table .braced) <$>
    fields.foldlM (fun table (key, value) => Fields.place? key value table) []

/-- A value with at most `depth` brackets around its innermost values. -/
def value : (depth : Nat) → Reader Value
  | 0 => scalar
  | depth + 1 => fun s =>
    match s with
    | '[' :: rest => do
      let (items, rest) ← itemsUntil ']' (value depth) rest
      return (.array false items, rest)
    | '{' :: rest => do
      let (fields, rest) ← itemsUntil '}' (field gaps (value depth)) rest
      return (← braced? fields, rest)
    | _ => scalar s

/-! ### Lines -/

/-- A line of a file. -/
inductive Line where
  | field (key : Key) (value : Value)
  /-- The header of a table. -/
  | table (key : Key)
  /-- The header of the next item of an array of tables. -/
  | item (key : Key)
  deriving Repr

/-- A header between brackets. -/
def header : Reader Line := do
  Reader.char '['
  let double ← optional (Reader.char '[')
  spaces
  let key ← key
  spaces
  Reader.char ']'
  if double.isSome then
    Reader.char ']'
    return .item key
  else return .table key

/-- A field on a line of its own. -/
def fieldLine : Reader Line := do
  let (key, value) ← field spaces (value nestingLimit)
  return .field key value

/-- A line, if it holds anything but blanks. -/
def line : Reader (Option Line) := do
  spaces
  let content ← match (← get).head? with
    | none | some '#' | some '\n' | some '\r' => pure none
    | some '[' => some <$> header
    | some _ => some <$> fieldLine
  spaces
  comment
  lineEnd
  return content

/-- The lines of a text. Every line takes at least its end, unless the text is empty. -/
def lines? (s : List Char) : Option (List Line) :=
  match line s with
  | none => none
  | some (content, rest) =>
    if rest.length < s.length then (content.toList ++ ·) <$> lines? rest
    else if rest.isEmpty then some content.toList
    else none
termination_by s.length

end Stimulus.Toml
