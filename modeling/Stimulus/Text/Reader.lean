/-!
# Readers

A **reader** takes a value from the front of a text and leaves the rest, or fails. Readers are run
one after the other; a choice between two readers gives the second one the text from which the
first one started.

## Main definitions

* `Reader`, `Reader.char`, `Reader.takeWhile`, `Reader.skipWhile`, `Reader.number`
* `Reader.all?`, the value of a reader that leaves nothing
-/

namespace Stimulus.Text

/-- Takes a value from the front of a text, or fails. -/
abbrev Reader (α : Type) := StateT (List Char) Option α

namespace Reader

/-- Takes one given character. -/
def char (c : Char) : Reader Unit := fun s =>
  match s with
  | [] => none
  | d :: rest => if d = c then some ((), rest) else none

/-- Takes one character that satisfies a test. -/
def satisfy (p : Char → Bool) : Reader Char := fun s =>
  match s with
  | [] => none
  | c :: rest => if p c then some (c, rest) else none

/-- Takes the longest run of characters that satisfy a test. -/
def takeWhile (p : Char → Bool) : Reader (List Char) := fun s =>
  some (s.takeWhile p, s.dropWhile p)

/-- Drops the longest run of characters that satisfy a test. -/
def skipWhile (p : Char → Bool) : Reader Unit := fun s =>
  some ((), s.dropWhile p)

/-- Takes a number of exactly `n` decimal digits. -/
def number (n : Nat) : Reader Nat := fun s =>
  let digits := s.take n
  if digits.length = n ∧ digits.all Char.isDigit then
    some (digits.foldl (fun m c => 10 * m + (c.toNat - '0'.toNat)) 0, s.drop n)
  else none

/-- The value of a reader on a text of which it leaves nothing. -/
def all? {α : Type} (r : Reader α) (s : List Char) : Option α :=
  match r s with
  | some (a, []) => some a
  | _ => none

end Reader

end Stimulus.Text
