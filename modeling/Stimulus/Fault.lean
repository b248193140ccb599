import Stimulus.Operator

/-!
# Faults

What can go wrong while a module is being put together. A **fault** records the cause; its wording
is the business of `Fault.message` alone. Faults fall into seven classes, of which the last, a
poisoned module, carries the fault that came first.

## Main definitions

* `Fault`, with the finer causes `Place`, `NameFlaw`, `RangeFlaw`, `ShapeFlaw` and `MissingFlaw`
* `Fault.message`, the text of a fault
* `Vocabulary`, a closed list of words, and `Vocabulary.read?`, which refuses all others
-/

namespace Stimulus

/-! ### Causes -/

/-- Where two kinds failed to agree. -/
inductive Place where
  /-- An operator between operands of two kinds. -/
  | operator (lhs : Kind) (op : BinaryOp) (rhs : Kind)
  | negation
  | inversion
  /-- A value handed over where one kind is wanted. -/
  | operand (wanted : Kind)
  | caseLabel
  | assignment (target : String)
  | variable (name : String)
  deriving DecidableEq, Repr

/-- What is wrong with a name. -/
inductive NameFlaw where
  | malformed
  | reserved
  | taken
  deriving DecidableEq, Repr

/-- A quantity outside its bounds. -/
inductive RangeFlaw where
  | integerLiteral (value : Int)
  | busIndex (bus : String) (index width : Nat)
  | sliceStep
  | netWidth (name : String)
  | crossTolerances (count : Nat)
  | negativeWord (value : Int)
  | wideRead (width : Nat) (signed : Bool) (limit : Nat)
  | emptyRead
  deriving DecidableEq, Repr

/-- The statement forms that own other statements. -/
inductive Owner where
  | block
  | eventBlock
  | repeatLoop
  | whileLoop
  | forLoop
  | thenBranch
  | elseBranch
  | caseArm
  deriving DecidableEq, Repr

/-- The three lists of analog commands in a module. -/
inductive Section where
  | prologue
  | body
  | epilogue
  deriving DecidableEq, Repr

/-- A statement in a place that is not made for it, or a state chart that is not closed. -/
inductive ShapeFlaw where
  | nestedEvent (owner : Owner)
  | scriptStepIn (owner : Owner)
  | scriptStepInSection (part : Section)
  | forHeader
  | duplicateDefault
  | caseInSequence
  | eventInSequence
  | unallocatedState (state : Nat)
  | resealedState (state : Nat)
  | unsealedState (state : Nat)
  | wideWrite (width limit : Nat)
  deriving DecidableEq, Repr

/-- An argument that another argument needs beside it. -/
inductive MissingFlaw where
  /-- A crossing (or, if `above`, a level) has an expression tolerance and no time tolerance. -/
  | timeTolerance (above : Bool)
  /-- A timer has a time tolerance and no period. -/
  | period
  deriving DecidableEq, Repr

/-- Why a construction step failed. -/
inductive Fault where
  | kindMismatch (place : Place) (expected found : Kind)
  | badName (name : String) (flaw : NameFlaw)
  | unknownWord (title word : String) (allowed : List String)
  | outOfRange (flaw : RangeFlaw)
  | misplaced (flaw : ShapeFlaw)
  | missing (flaw : MissingFlaw)
  | poisoned (module : String) (cause : Fault)
  deriving DecidableEq, Repr

/-! ### Wording -/

/-- How a message names the place of a kind mismatch. -/
def Place.title : Place → String
  | .operator lhs op rhs => lhs.title ++ " " ++ op.symbol ++ " " ++ rhs.title
  | .negation => "unary -"
  | .inversion => "unary !"
  | .operand wanted => wanted.title ++ " value"
  | .caseLabel => "case label"
  | .assignment target => "assignment to `" ++ target ++ "`"
  | .variable name => name

/-- How a message states what is wrong with a name. -/
def NameFlaw.reason : NameFlaw → String
  | .malformed => "must match [_A-Za-z][_A-Za-z$0-9]*"
  | .reserved => "is a Verilog-A keyword"
  | .taken => "is already declared in this module"

/-- How a message names the quantity that is out of bounds. -/
def RangeFlaw.title : RangeFlaw → String
  | .integerLiteral _ => "integer literal"
  | .busIndex .. => "bus index"
  | .sliceStep => "bus slice step"
  | .netWidth _ => "net width"
  | .crossTolerances _ => "cross tolerances"
  | .negativeWord _ => "bus word"
  | .wideRead .. => "bus read"
  | .emptyRead => "bus read"

/-- How a message explains which bound was missed. -/
def RangeFlaw.detail : RangeFlaw → String
  | .integerLiteral value => toString value ++ " does not fit in a 32-bit Verilog-A integer"
  | .busIndex bus index width =>
    bus ++ "[" ++ toString index ++ "] on a " ++ toString width ++ "-bit bus"
  | .sliceStep => "step must be positive"
  | .netWidth name => "`" ++ name ++ "` must be at least 1 bit wide"
  | .crossTolerances count => "expected at most 2, got " ++ toString count
  | .negativeWord value => toString value ++ " is negative"
  | .wideRead width signed limit =>
    toString width ++ "-bit " ++ (if signed then "signed" else "unsigned") ++ " read exceeds "
      ++ toString limit ++ " bits"
  | .emptyRead => "bus has no bits"

/-- How a message names a statement form. -/
def Owner.title : Owner → String
  | .block => "block"
  | .eventBlock => "event block"
  | .repeatLoop => "repeat"
  | .whileLoop => "while"
  | .forLoop => "for"
  | .thenBranch => "if"
  | .elseBranch => "else"
  | .caseArm => "case"

/-- How a message names a section. -/
def Section.title : Section → String
  | .prologue => "prologue"
  | .body => "body"
  | .epilogue => "epilogue"

/-- How a message names the construct whose shape is violated. -/
def ShapeFlaw.title : ShapeFlaw → String
  | .nestedEvent owner => owner.title
  | .scriptStepIn owner => owner.title
  | .scriptStepInSection part => part.title
  | .forHeader => "for"
  | .duplicateDefault => "case"
  | .caseInSequence => "sequence"
  | .eventInSequence => "sequence"
  | .unallocatedState _ => "sequence"
  | .resealedState _ => "sequence"
  | .unsealedState _ => "sequence"
  | .wideWrite .. => "bus write"

/-- How a message explains what is misplaced. -/
def ShapeFlaw.detail : ShapeFlaw → String
  | .nestedEvent _ => "event blocks `@( ... )` cannot be nested inside other statements"
  | .scriptStepIn _ => "wait and mark statements are only allowed in sequences, if and loops"
  | .scriptStepInSection _ => "wait and mark statements are only allowed inside a sequence"
  | .forHeader => "initialiser and step must be single assignments"
  | .duplicateDefault => "duplicate default arm"
  | .caseInSequence => "case statements cannot be used in a sequence, use if chains instead"
  | .eventInSequence =>
    "event blocks cannot be used in a sequence, use a signal wait instead"
  | .unallocatedState state => "state " ++ toString state ++ " was never allocated"
  | .resealedState state => "state " ++ toString state ++ " sealed twice"
  | .unsealedState state => "state " ++ toString state ++ " was allocated but never sealed"
  | .wideWrite width limit =>
    "cannot write an integer expression to a " ++ toString width ++ "-bit bus (max "
      ++ toString limit ++ ")"

/-- How a message names the constructor that lacks an argument. -/
def MissingFlaw.title : MissingFlaw → String
  | .timeTolerance above => if above then "above" else "cross"
  | .period => "timer"

/-- How a message names the argument that is lacking. -/
def MissingFlaw.detail : MissingFlaw → String
  | .timeTolerance _ => "expression tolerance given without a time tolerance"
  | .period => "time tolerance given without a period"

/-- The text of a fault. -/
def Fault.message : Fault → String
  | .kindMismatch place expected found =>
    "Type mismatch in `" ++ place.title ++ "`: expected " ++ expected.title ++ ", found "
      ++ found.title
  | .badName name flaw => "Invalid identifier `" ++ name ++ "`: " ++ flaw.reason
  | .unknownWord title word allowed =>
    "Unknown " ++ title ++ " `" ++ word ++ "` (expected one of: "
      ++ String.intercalate ", " allowed ++ ")"
  | .outOfRange flaw => flaw.title ++ " out of range: " ++ flaw.detail
  | .misplaced flaw => "Structural violation in " ++ flaw.title ++ ": " ++ flaw.detail
  | .missing flaw => "Missing parameter for `" ++ flaw.title ++ "`: " ++ flaw.detail
  | .poisoned module cause =>
    "Module `" ++ module ++ "` cannot be emitted after a construction error: " ++ cause.message

/-! ### Closed vocabularies -/

/-- A closed list of words, each of which stands for one value. -/
structure Vocabulary (α : Type) where
  /-- What the words name. -/
  title : String
  /-- The words in the order in which messages list them. -/
  terms : List (String × α)

/-- The value a word stands for; a word that is not listed is refused. -/
def Vocabulary.read? {α : Type} (v : Vocabulary α) (word : String) : Except Fault α :=
  match v.terms.lookup word with
  | some value => .ok value
  | none => .error (.unknownWord v.title word (v.terms.map (·.1)))

end Stimulus
