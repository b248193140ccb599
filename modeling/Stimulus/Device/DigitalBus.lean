import Stimulus.Device.Digital

/-!
# Digital buses

A bus of digital pins has one pin on each bit, bit 0 being the least significant. A **word** is
put on a bus bit by bit, and an integer is put together from the levels of the bits.

## Main definitions

* `BusWord`, `BusWord.levels?`: the level of each bit of a word
* `joinLevels?`, the integer with given levels
* `OutputBus`, `InputBus`, `PinBus`
-/

namespace Stimulus

/-- The number of bits of an integer of the simulator. -/
def wordBits : Nat :=
  32

/-! ### Words and levels -/

/-- A word to be put on a bus. -/
inductive BusWord where
  | host (value : Nat)
  /-- A number that must not be negative. -/
  | signed (value : Int)
  | expr (value : Expr .integer)

namespace BusWord

/-- The levels of the bits of a natural. -/
def hostLevels (width value : Nat) : List (Expr .bool) :=
  (List.range width).map fun i => .bool (value.testBit i)

/-- The levels of the bits of a word on a bus of a given width. -/
def levels? (width : Nat) : BusWord → Except Fault (List (Expr .bool))
  | host value => .ok (hostLevels width value)
  | signed value =>
    if value < 0 then .error (.outOfRange (.negativeWord value))
    else .ok (hostLevels width value.toNat)
  | expr value =>
    if wordBits < width then .error (.misplaced (.wideWrite width wordBits))
    else .ok ((List.range width).map fun (i : Nat) => value.bit (.integer i))

end BusWord

/-- What bit `i` of a bus of a given width is worth. The highest bit of a signed bus counts
negative. -/
def levelTerm (signed : Bool) (width : Nat) (level : Expr .bool) (i : Nat) : Expr .integer :=
  let bit := if i = 0 then level.ofBool else .arith .shl rfl level.ofBool (.integer i)
  if signed && i + 1 == width then .neg (by decide) bit else bit

/-- The integer with the given levels, bit 0 first. A signed one has to leave a bit of the word
free. -/
def joinLevels? (signed : Bool) (levels : List (Expr .bool)) : Except Fault (Expr .integer) :=
  let width := levels.length
  let limit := if signed then wordBits - 1 else wordBits
  if limit < width then .error (.outOfRange (.wideRead width signed limit))
  else
    match levels.zipIdx.map fun (level, i) => levelTerm signed width level i with
    | [] => .error (.outOfRange .emptyRead)
    | term :: rest => .ok (rest.foldl (.arith .add rfl) term)

/-! ### Buses -/

/-- Outputs on the bits of a bus. -/
structure OutputBus where
  bus : Bus
  bits : List DigitalOutput
  deriving DecidableEq, Repr

namespace OutputBus

/-- Installs an output on every bit. -/
def install (bus : Bus) (domain : Net) : Build OutputBus := do
  return ⟨bus, ← bus.bits.mapM (DigitalOutput.install · domain)⟩

/-- Puts a word on the bus. -/
def write? (b : OutputBus) (word : BusWord) : Except Fault Statement := do
  let levels ← word.levels? b.bits.length
  return .ofCommands (b.bits.zipWith DigitalOutput.write levels)

/-- Sets the times of all outputs. -/
def setEdges (b : OutputBus) (rise fall : Expr .real) : Statement :=
  .ofList (b.bits.map (·.edges.set rise fall))

end OutputBus

/-- Inputs on the bits of a bus. -/
structure InputBus where
  bus : Bus
  bits : List DigitalInput
  deriving DecidableEq, Repr

namespace InputBus

/-- Installs an input on every bit. -/
def install (bus : Bus) (domain : Net) : Build InputBus := do
  return ⟨bus, ← bus.bits.mapM (DigitalInput.install · domain)⟩

/-- The integer on the bus. -/
def read? (b : InputBus) (signed : Bool) : Except Fault (Expr .integer) :=
  joinLevels? signed (b.bits.map (·.read))

end InputBus

/-- Bidirectional pins on the bits of a bus. -/
structure PinBus where
  bus : Bus
  bits : List DigitalPin
  deriving DecidableEq, Repr

namespace PinBus

/-- Installs a bidirectional pin on every bit. -/
def install (bus : Bus) (domain : Net) : Build PinBus := do
  return ⟨bus, ← bus.bits.mapM (DigitalPin.install · domain)⟩

/-- Drives the bus with a word. -/
def write? (b : PinBus) (word : BusWord) : Except Fault Statement := do
  let levels ← word.levels? b.bits.length
  return .ofCommands (b.bits.zipWith DigitalPin.write levels).flatten

/-- Leaves the bus to others. -/
def release (b : PinBus) : Statement :=
  .ofCommands (b.bits.map (·.release))

/-- The integer on the bus. -/
def read? (b : PinBus) (signed : Bool) : Except Fault (Expr .integer) :=
  joinLevels? signed (b.bits.map (·.read))

/-- Sets the times of all pins. -/
def setEdges (b : PinBus) (rise fall : Expr .real) : Statement :=
  .ofList (b.bits.map (·.edges.set rise fall))

end PinBus

end Stimulus
