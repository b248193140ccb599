/-!
# Texts

What the texts of a module are put together from, and how texts are divided: white space, string
literals, lines, and the comments that divide an emitted module into parts.

A text is a sequence of lines, each of which ends in a line feed or in a carriage return and a
line feed. What follows the last line feed is a line of its own if it is not empty; a carriage
return at its end belongs to it.

## Main definitions

* `Text.isBlank`: the characters with the Unicode property of white space
* `Text.quote`: string literals
* `Text.lines`
* `Text.banner`, `Text.rule`, `Text.boxed`: comments, 78 characters wide unless their text is too
  long for that
-/

namespace Stimulus.Text

/-! ### Blanks -/

/-- Whether a character is white space. -/
def isBlank (c : Char) : Bool :=
  let n := c.toNat
  (0x09 ≤ n && n ≤ 0x0d) || n == 0x20 || n == 0x85 || n == 0xa0 || n == 0x1680
    || (0x2000 ≤ n && n ≤ 0x200a) || n == 0x2028 || n == 0x2029 || n == 0x202f || n == 0x205f
    || n == 0x3000

/-! ### String literals -/

/-- The written form of one character inside a string literal. A quote, a backslash, a line feed
and a tab are written as a backslash followed by one character; every other character stands for
itself. -/
def escape (c : Char) : List Char :=
  if c = '"' then ['\\', '"']
  else if c = '\\' then ['\\', '\\']
  else if c = '\n' then ['\\', 'n']
  else if c = '\t' then ['\\', 't']
  else [c]

/-- The string literal that stands for a text. -/
def quote (text : String) : String :=
  String.ofList ('"' :: text.toList.flatMap escape ++ ['"'])

/-! ### Lines -/

/-- A line, given backwards, without the carriage return that may end it. -/
def endLine : List Char → List Char
  | '\r' :: before => before.reverse
  | before => before.reverse

/-- The lines of a text without their ends, after the characters `before` of the first line, which
are given backwards. -/
def linesAfter (before : List Char) : List Char → List (List Char)
  | [] => if before.isEmpty then [] else [before.reverse]
  | c :: rest =>
    if c = '\n' then endLine before :: linesAfter [] rest else linesAfter (c :: before) rest

/-- The lines of a text, without their ends. -/
def lines (text : String) : List String :=
  (linesAfter [] text.toList).map String.ofList

/-! ### Banners -/

/-- The width of the comments. -/
def bannerWidth : Nat :=
  78

/-- A run of one character. -/
def run (n : Nat) (c : Char) : String :=
  String.ofList (List.replicate n c)

/-- A title in the middle of a line of dashes. An odd dash stands on the right. -/
def banner (title : String) : String :=
  let inner := " " ++ title ++ " "
  let dashes := bannerWidth - 4 - inner.length
  "/*" ++ run (dashes / 2) '-' ++ inner ++ run (dashes - dashes / 2) '-' ++ "*/\n"

/-- A line of dashes. -/
def rule : String :=
  "/*" ++ run (bannerWidth - 4) '-' ++ "*/\n"

/-- A text at the left of a line. -/
def boxed (text : String) : String :=
  "/* " ++ text ++ run (bannerWidth - 6 - text.length) ' ' ++ " */\n"

end Stimulus.Text
