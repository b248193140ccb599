import Stimulus.Toml.Blank
import Stimulus.Toml.Scalar

/-!
# Quoted texts

A text stands between double quotes, where a backslash starts an escape, or between single quotes,
where every character stands for itself. Between three quotes of either sort it may run over
several lines.

## Main definitions

* `Toml.escaped?`, the character for which an escape stands
* `Toml.lineText`, `Toml.quotedText`
-/

namespace Stimulus.Toml

open Text

/-- How many hexadecimal digits follow the letter of an escape. -/
def escapeLength : Char → Nat
  | 'x' => 2
  | 'u' => 4
  | 'U' => 8
  | _ => 0

/-- The character with a given code point, if it is one. -/
def charOfCode? (n : Nat) : Option Char :=
  if n.isValidChar then some (Char.ofNat n) else none

/-- The character for which an escape stands, given its letter and its digits. -/
def escaped? (letter : Char) (digits : List Char) : Option Char :=
  match letter with
  | 'b' => some '\x08'
  | 't' => some '\t'
  | 'n' => some '\n'
  | 'f' => some '\x0c'
  | 'r' => some '\r'
  | 'e' => some '\x1b'
  | '"' => some '"'
  | '\\' => some '\\'
  | _ => do
    guard (digits ≠ [] ∧ digits.length = escapeLength letter)
    charOfCode? (ofDigits 16 (← digits.mapM (digit? 16)))

/-- Puts a character in front of a text that has been taken. -/
def consTaken (c : Char) : List Char × List Char → List Char × List Char
  | (text, rest) => (c :: text, rest)

/-- Takes a quoted text on one line, after its first quote. -/
def basicText : List Char → Option (List Char × List Char)
  | [] => none
  | '"' :: rest => some ([], rest)
  | '\\' :: letter :: rest => do
    let n := escapeLength letter
    let c ← escaped? letter (rest.take n)
    return consTaken c (← basicText (rest.drop n))
  | c :: rest => if isPlain c ∧ c ≠ '\\' then (basicText rest).map (consTaken c) else none
termination_by s => s.length
decreasing_by all_goals simp; try omega

/-- Whether a backslash that stands before this text joins two lines: only spaces follow it on its
line. -/
def joinsLines (s : List Char) : Bool :=
  match s.dropWhile isSpace with
  | '\n' :: _ => true
  | '\r' :: '\n' :: _ => true
  | _ => false

/-- Takes a text in triple quotes, after the first three. The flag marks that spaces and line ends
are dropped, as they are after a backslash at the end of a line. Up to two quotes may stand right
before the closing three. -/
def longText : Bool → List Char → Option (List Char × List Char)
  | _, [] => none
  | _, '"' :: '"' :: '"' :: '"' :: '"' :: rest => some (['"', '"'], rest)
  | _, '"' :: '"' :: '"' :: '"' :: rest => some (['"'], rest)
  | _, '"' :: '"' :: '"' :: rest => some ([], rest)
  | drop, '\r' :: '\n' :: rest =>
    if drop then longText true rest
    else (longText false rest).map (consTaken '\r' ∘ consTaken '\n')
  | _, '\\' :: letter :: rest =>
    if joinsLines (letter :: rest) then longText true (letter :: rest)
    else do
      let n := escapeLength letter
      let c ← escaped? letter (rest.take n)
      return consTaken c (← longText false (rest.drop n))
  | drop, c :: rest =>
    if drop ∧ (isSpace c ∨ c = '\n') then longText true rest
    else if (isPlain c ∨ c = '\n') ∧ c ≠ '\\' then (longText false rest).map (consTaken c)
    else none
termination_by _ s => s.length
decreasing_by all_goals simp; try omega

/-- Takes a text without escapes on one line, after its first quote. -/
def literalText : List Char → Option (List Char × List Char)
  | [] => none
  | '\'' :: rest => some ([], rest)
  | c :: rest => if isPlain c then (literalText rest).map (consTaken c) else none

/-- Takes a text without escapes in triple quotes, after the first three. -/
def longLiteralText : List Char → Option (List Char × List Char)
  | [] => none
  | '\'' :: '\'' :: '\'' :: '\'' :: '\'' :: rest => some (['\'', '\''], rest)
  | '\'' :: '\'' :: '\'' :: '\'' :: rest => some (['\''], rest)
  | '\'' :: '\'' :: '\'' :: rest => some ([], rest)
  | '\r' :: '\n' :: rest => (longLiteralText rest).map (consTaken '\r' ∘ consTaken '\n')
  | c :: rest =>
    if isPlain c ∨ c = '\n' then (longLiteralText rest).map (consTaken c) else none

/-- A line end right after the first three quotes does not belong to the text. -/
def dropLineEnd : List Char → List Char
  | '\n' :: rest => rest
  | '\r' :: '\n' :: rest => rest
  | s => s

/-- Takes a quoted text on one line. -/
def lineText : Reader String := fun s =>
  match s with
  | '"' :: rest => (basicText rest).map fun (text, rest) => (String.ofList text, rest)
  | '\'' :: rest => (literalText rest).map fun (text, rest) => (String.ofList text, rest)
  | _ => none

/-- Takes a quoted text. -/
def quotedText : Reader String := fun s =>
  match s with
  | '"' :: '"' :: '"' :: rest =>
    (longText false (dropLineEnd rest)).map fun (text, rest) => (String.ofList text, rest)
  | '\'' :: '\'' :: '\'' :: rest =>
    (longLiteralText (dropLineEnd rest)).map fun (text, rest) => (String.ofList text, rest)
  | _ => lineText s

end Stimulus.Toml
