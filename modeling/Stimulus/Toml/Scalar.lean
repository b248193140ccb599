import Stimulus.Text.Reader
import Stimulus.Toml.Value

/-!
# Bare words

A value that is neither quoted nor bracketed is a **word**: a truth value, an integer, a
floating-point number or a moment. The four do not overlap, so a word is read by trying one after
the other.

## Main definitions

* `Toml.integer?`, `Toml.float?`, `Toml.dateTime`
* `Toml.Value.ofWord?`
-/

namespace Stimulus.Toml

open Text

/-! ### Digits -/

/-- The value of a digit in a base up to sixteen; letters may be of either case. -/
def digit? (base : Nat) (c : Char) : Option Nat :=
  let n :=
    if c.isDigit then c.toNat - '0'.toNat
    else if 'a' ≤ c ∧ c ≤ 'f' then c.toNat - 'a'.toNat + 10
    else if 'A' ≤ c ∧ c ≤ 'F' then c.toNat - 'A'.toNat + 10
    else base
  if n < base then some n else none

/-- The digits of a number. There is at least one, and single underscores may stand between
two digits. -/
def digits? (base : Nat) : List Char → Option (List Nat)
  | [] => none
  | [c] => return [← digit? base c]
  | c :: '_' :: rest => return (← digit? base c) :: (← digits? base rest)
  | c :: rest => return (← digit? base c) :: (← digits? base rest)

/-- The digits of a decimal number, which has no needless leading zero. -/
def decimal? (word : List Char) : Option (List Nat) :=
  match digits? 10 word with
  | some (0 :: _ :: _) => none
  | digits => digits

/-- The natural number with given digits, the highest first. -/
def ofDigits (base : Nat) (digits : List Nat) : Nat :=
  digits.foldl (fun n d => base * n + d) 0

/-! ### Numbers -/

/-- Takes the sign off a word, if it has one; the flag marks a minus sign. -/
def unsigned : List Char → Bool × List Char
  | '-' :: rest => (true, rest)
  | '+' :: rest => (false, rest)
  | word => (false, word)

/-- The integer with given sign and magnitude. -/
def signed (negative : Bool) (n : Nat) : Int :=
  if negative then -n else n

/-- Reads an integer. Only decimal ones have a sign. -/
def integer? : List Char → Option Int
  | '0' :: 'x' :: rest => (digits? 16 rest).map fun ds => ofDigits 16 ds
  | '0' :: 'o' :: rest => (digits? 8 rest).map fun ds => ofDigits 8 ds
  | '0' :: 'b' :: rest => (digits? 2 rest).map fun ds => ofDigits 2 ds
  | word =>
    let (negative, magnitude) := unsigned word
    (decimal? magnitude).map fun ds => signed negative (ofDigits 10 ds)

/-- The part of a word before the first character that satisfies a test, and the part after it if
there is one. -/
def cut (p : Char → Bool) (word : List Char) : List Char × Option (List Char) :=
  match word.dropWhile (!p ·) with
  | [] => (word, none)
  | _ :: rest => (word.takeWhile (!p ·), some rest)

/-- Reads a floating-point number: digits, then a fraction, an exponent or both. -/
def float? (word : List Char) : Option FloatLiteral := do
  let (negative, magnitude) := unsigned word
  if magnitude = "inf".toList then return .infinity negative
  if magnitude = "nan".toList then return .nan
  let (mantissa, power) := cut (fun c => c = 'e' ∨ c = 'E') magnitude
  let (whole, fraction) := cut (· = '.') mantissa
  guard (fraction.isSome ∨ power.isSome)
  let wholeDigits ← decimal? whole
  let fractionDigits ← match fraction with
    | none => some []
    | some digits => digits? 10 digits
  let exponent ← match power with
    | none => some 0
    | some digits =>
      let (down, n) := unsigned digits
      (digits? 10 n).map fun ds => signed down (ofDigits 10 ds)
  return .decimal negative (ofDigits 10 (wholeDigits ++ fractionDigits))
    (exponent - fractionDigits.length)

/-! ### Moments -/

/-- The number of days in a month of the Gregorian calendar. -/
def monthLength (year month : Nat) : Nat :=
  if month = 2 then
    if year % 4 = 0 ∧ (year % 100 ≠ 0 ∨ year % 400 = 0) then 29 else 28
  else if month ∈ [4, 6, 9, 11] then 30
  else 31

/-- A date: year, month and day. -/
def date : Reader Unit := do
  let year ← Reader.number 4
  Reader.char '-'
  let month ← Reader.number 2
  Reader.char '-'
  let day ← Reader.number 2
  guard (1 ≤ month ∧ month ≤ 12 ∧ 1 ≤ day ∧ day ≤ monthLength year month)

/-- An hour and a minute. -/
def hourMinute : Reader Unit := do
  let hour ← Reader.number 2
  Reader.char ':'
  let minute ← Reader.number 2
  guard (hour ≤ 23 ∧ minute ≤ 59)

/-- The fraction of a second. -/
def secondFraction : Reader Unit := do
  Reader.char '.'
  let _ ← Reader.satisfy Char.isDigit
  Reader.skipWhile Char.isDigit

/-- The second of a minute, of which a leap second may be the last. -/
def second : Reader Unit := do
  Reader.char ':'
  let n ← Reader.number 2
  guard (n ≤ 60)
  let _ ← optional secondFraction

/-- The time of a day. -/
def time : Reader Unit := do
  hourMinute
  let _ ← optional second

/-- The distance of a clock from universal time. -/
def offset : Reader Unit := do
  let mark ← Reader.satisfy (· ∈ ['Z', 'z', '+', '-'])
  if mark = '+' ∨ mark = '-' then hourMinute

/-- The part of a moment after its date. -/
def timeAfterDate : Reader Unit := do
  let _ ← Reader.satisfy (· ∈ ['T', 't', ' '])
  time
  let _ ← optional offset

/-- A date, a time, or a date and a time. -/
def dateTime : Reader Unit :=
  (do date; let _ ← optional timeAfterDate) <|> time

/-! ### Words -/

/-- Whether a character may be part of a word. -/
def isWordChar (c : Char) : Bool :=
  c.isAlphanum || c ∈ ['+', '-', '_', '.', ':']

/-- The value of a word. -/
def Value.ofWord? (word : List Char) : Option Value :=
  if word = "true".toList then some (.boolean true)
  else if word = "false".toList then some (.boolean false)
  else
    (integer? word).map .integer
      <|> (float? word).map .float
      <|> (dateTime.all? word).map fun _ => .moment (String.ofList word)

end Stimulus.Toml
