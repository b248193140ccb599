import Stimulus.Number.Word

/-!
# TOML values

A TOML file stands for a tree of tables whose leaves are texts, numbers, truth values and moments.
A table remembers how it came to be, since that decides which later lines of the file may still add
to it. Numbers are kept as they are written: whether one fits a machine number is asked only when
it is used.

## Main definitions

* `Toml.Value`, `Toml.Fields`, `Toml.Key`
* `Toml.FloatLiteral` and the binary64 number nearest to it, `Toml.FloatLiteral.toFloat?`
* `Toml.Value.inRange`, whether every number in a value fits some machine number
-/

namespace Stimulus.Toml

/-! ### Floating-point numbers -/

/-- A floating-point number as it is written. -/
inductive FloatLiteral where
  /-- The number `digits · 10 ^ exponent`, negated if `negative`. -/
  | decimal (negative : Bool) (digits : Nat) (exponent : Int)
  | infinity (negative : Bool)
  | nan
  deriving DecidableEq, Repr

namespace FloatLiteral

/-- The binary64 number nearest to `digits · 10 ^ exponent`. It is infinite for all numbers from
`10 ^ 310` on and zero for all numbers below `10 ^ (-330)`, so that these need no arithmetic. -/
def nearest (digits : Nat) (exponent : Int) : Float :=
  let magnitude : Int := (Nat.toDigits 10 digits).length + exponent
  if digits = 0 ∨ magnitude < -330 then 0.0
  else if 310 < magnitude then 1.0 / 0.0
  else Float.ofScientific digits (exponent < 0) exponent.natAbs

/-- The sign of a literal is kept, that of a zero included. -/
def withSign (negative : Bool) (x : Float) : Float :=
  if negative then -x else x

/-- The nearest binary64 number. A literal that has digits is refused if that number is
infinite. -/
def toFloat? : FloatLiteral → Option Float
  | .nan => some (0.0 / 0.0)
  | .infinity negative => some (withSign negative (1.0 / 0.0))
  | .decimal negative digits exponent =>
    let x := nearest digits exponent
    if x.isInf then none else some (withSign negative x)

end FloatLiteral

/-! ### Values -/

/-- How a table came to be. -/
inductive Origin where
  /-- It lies on the way to a table that a header names. -/
  | implied
  /-- It lies on the way to the field that a dotted key names. -/
  | dotted
  /-- A header names it. -/
  | header
  /-- It is written between braces. -/
  | braced
  deriving DecidableEq, Repr

/-- A value of a TOML file. -/
inductive Value where
  | text (content : String)
  | integer (value : Int)
  | float (value : FloatLiteral)
  | boolean (value : Bool)
  /-- A date, a time or both, as written. -/
  | moment (written : String)
  /-- An array, which is `growing` if headers make its items. -/
  | array (growing : Bool) (items : List Value)
  | table (origin : Origin) (fields : List (String × Value))
  deriving Repr

/-- The fields of a table, in the order in which they were first named. -/
abbrev Fields := List (String × Value)

/-- A key of several names: those of the tables on the way, and the name of the last part. -/
structure Key where
  path : List String
  name : String
  deriving DecidableEq, Repr

/-! ### Ranges -/

mutual

/-- Whether every number in a value fits some machine number: integers of 128 bits with or without
a sign, and binary64 numbers. -/
def Value.inRange : Value → Bool
  | .integer n => Word.fits 128 n
  | .float x => x.toFloat?.isSome
  | .array _ items => itemsInRange items
  | .table _ fields => fieldsInRange fields
  | .text _ | .boolean _ | .moment _ => true

/-- Whether every number in a list of values fits some machine number. -/
def itemsInRange : List Value → Bool
  | [] => true
  | v :: rest => v.inRange && itemsInRange rest

/-- Whether every number in a list of fields fits some machine number. -/
def fieldsInRange : List (String × Value) → Bool
  | [] => true
  | (_, v) :: rest => v.inRange && fieldsInRange rest

end

end Stimulus.Toml
