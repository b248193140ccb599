import Stimulus.Text.Basic

/-!
# Wrapping long lines

A line that is longer than a given column is broken, but only where a closing parenthesis is
followed by a comma, only once the column has been reached, and never inside a string literal. The
blanks after the comma give way to the line break, and the next line starts with the blanks of the
first one and four more. A comma that nothing but blanks follow ends the line.

## Main definitions

* `Wrap.go`, the scanner that inserts the breaks
* `softWrap`, a line with its breaks
-/

namespace Stimulus.Text

namespace Wrap

/-- How a line is wrapped: from which column on, and with which blanks a new line starts. Their
width is counted in bytes. -/
structure Margin where
  column : Nat
  continuation : List Char
  width : Nat
  deriving DecidableEq, Repr

/-- Where the scanner stands: the characters on the line so far, the last character, whether it is
inside a string literal, and whether a break is due before the next character that is not a
blank. -/
structure State where
  width : Nat
  last : Option Char
  quoted : Bool
  due : Bool
  deriving DecidableEq, Repr

/-- The scanner at the beginning of a line. -/
def State.start : State :=
  ⟨0, none, false, false⟩

/-- The scanner after one more character on the line. A quote after a backslash does not delimit a
string literal. -/
def State.next (m : Margin) (s : State) (c : Char) : State :=
  let quoted := if c == '"' && s.last != some '\\' then !s.quoted else s.quoted
  let width := s.width + 1
  ⟨width, some c, quoted, c == ',' && s.last == some ')' && !quoted && m.column ≤ width⟩

/-- The scanner at the beginning of a continuation line. -/
def State.broken (m : Margin) (s : State) : State :=
  { s with width := m.width, due := false }

/-- Copies a line and breaks it where a break is due. -/
def go (m : Margin) (s : State) : List Char → List Char
  | [] => []
  | c :: rest =>
    if s.due then
      if c == ' ' then go m s rest
      else '\n' :: m.continuation ++ c :: go m ((s.broken m).next m c) rest
    else c :: go m (s.next m c) rest

end Wrap

/-- A line broken into lines that end soon after the column. -/
def softWrap (column : Nat) (line : String) : String :=
  if line.length ≤ column then line
  else
    let continuation := line.toList.takeWhile isBlank ++ List.replicate 4 ' '
    let margin : Wrap.Margin :=
      ⟨column, continuation, (String.ofList continuation).utf8ByteSize⟩
    String.ofList (Wrap.go margin .start line.toList)

end Stimulus.Text
