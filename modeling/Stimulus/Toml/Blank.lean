import Stimulus.Text.Reader

/-!
# Blanks in a TOML file

The parts of a line are separated by spaces and tabs, and a comment may stand at the end of a line.
Between brackets, lines may end anywhere.

## Main definitions

* `Toml.spaces`, `Toml.comment`, `Toml.lineEnd`
* `Toml.gaps`, the blanks between brackets
-/

namespace Stimulus.Toml

open Text

/-- Whether a character separates the parts of a line. -/
def isSpace (c : Char) : Bool :=
  c = ' ' ∨ c = '\t'

/-- Whether a character may stand in a comment or between quotes: all but the control characters,
of which only the tab may. -/
def isPlain (c : Char) : Bool :=
  c = '\t' ∨ (' ' ≤ c ∧ c ≠ '\x7f')

/-- Drops spaces. -/
def spaces : Reader Unit :=
  Reader.skipWhile isSpace

/-- Drops a comment, if there is one. -/
def comment : Reader Unit := fun s =>
  match s with
  | '#' :: rest => some ((), rest.dropWhile isPlain)
  | _ => some ((), s)

/-- Takes the end of a line. -/
def lineEnd : Reader Unit := fun s =>
  match s with
  | [] => some ((), [])
  | '\n' :: rest => some ((), rest)
  | '\r' :: '\n' :: rest => some ((), rest)
  | _ => none

/-- Drops spaces, line ends and comments; the flag marks the inside of a comment. -/
def dropGaps : Bool → List Char → List Char
  | _, '\n' :: rest => dropGaps false rest
  | _, '\r' :: '\n' :: rest => dropGaps false rest
  | true, c :: rest => if isPlain c then dropGaps true rest else c :: rest
  | false, '#' :: rest => dropGaps true rest
  | false, c :: rest => if isSpace c then dropGaps false rest else c :: rest
  | _, [] => []

/-- Drops spaces, line ends and comments. -/
def gaps : Reader Unit := fun s =>
  some ((), dropGaps false s)

end Stimulus.Toml
