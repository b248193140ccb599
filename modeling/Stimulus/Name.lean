import Stimulus.Fault

/-!
# Names

A module's nets, parameters and variables share one **namespace**. A name is claimed once; it has
to be an identifier and not a reserved word. Names that nobody chose are numbered, and the numbers
only grow.

## Main definitions

* `Name.check`, the rule for a single name
* `Namespace.claim`, which also refuses a name claimed before
* `Namespace.fresh`, the next free numbered name
-/

namespace Stimulus

namespace Name

/-- An identifier starts with an underscore or an ASCII letter. -/
def isStart (c : Char) : Bool :=
  c == '_' || c.isAlpha

/-- After its first character an identifier may also hold dollar signs and ASCII digits. -/
def isRest (c : Char) : Bool :=
  isStart c || c == '$' || c.isDigit

/-- The rule for identifiers. -/
def isIdentifier (name : String) : Bool :=
  match name.toList with
  | [] => false
  | c :: rest => isStart c && rest.all isRest

/-- The reserved words of the modelling language. -/
def reserved : List String :=
  ["analog", "begin", "case", "default", "discipline", "electrical", "else", "end", "endcase",
    "endfunction", "endmodule", "for", "function", "if", "inout", "input", "integer", "module",
    "output", "parameter", "real", "repeat", "while"]

/-- Accepts identifiers that are not reserved words. -/
def check (name : String) : Except Fault Unit :=
  if !isIdentifier name then .error (.badName name .malformed)
  else if reserved.contains name then .error (.badName name .reserved)
  else .ok ()

/-- The anonymous name with a given number. -/
def anonymous (n : Nat) : String :=
  "_$" ++ toString n

end Name

/-- The names claimed so far, the latest first, and the number of the latest anonymous name. -/
structure Namespace where
  taken : List String
  counter : Nat
  deriving DecidableEq, Repr

namespace Namespace

/-- The namespace in which nothing is claimed. -/
def empty : Namespace :=
  ⟨[], 0⟩

/-- Claims a name that the user chose. -/
def claim (s : Namespace) (name : String) : Except Fault Namespace := do
  Name.check name
  if s.taken.contains name then .error (.badName name .taken)
  else .ok { s with taken := name :: s.taken }

/-- The first number from `n` on whose anonymous name is not taken, among the next `tries`
numbers, and the number after these if they are all taken. -/
def firstFree (taken : List String) (n : Nat) : Nat → Nat
  | 0 => n
  | tries + 1 => if taken.contains (Name.anonymous n) then firstFree taken (n + 1) tries else n

/-- Claims the next anonymous name. Of one number more than there are names taken, at least one
is free, so the search always ends at a free number. -/
def fresh (s : Namespace) : String × Namespace :=
  let n := firstFree s.taken (s.counter + 1) s.taken.length
  (Name.anonymous n, ⟨Name.anonymous n :: s.taken, n⟩)

end Namespace

end Stimulus
