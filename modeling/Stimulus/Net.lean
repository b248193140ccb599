import Stimulus.Fault

/-!
# Nets

A module meets its surroundings at **nets**. A net is a scalar or one bit of a **bus**; a
**branch** runs from a net to another one or to ground, and its potential or its flow can be read
and driven.

## Main definitions

* `Direction`, `Net`, `Bus`, `Branch`
* `Bus.bit?`, `Bus.slice?`: bits by index, and runs of bits in either direction
* `Branch.text`, the access function of a branch
-/

namespace Stimulus

/-! ### Directions -/

/-- How a net takes part in the module's interface. An internal net is not a port. -/
inductive Direction where
  | input
  | output
  | inout
  | internal
  deriving DecidableEq, Repr

namespace Direction

/-- The keyword of a port declaration. -/
def keyword? : Direction → Option String
  | .input => some "input"
  | .output => some "output"
  | .inout => some "inout"
  | .internal => none

/-- The word for a direction. -/
def title (d : Direction) : String :=
  d.keyword?.getD "internal"

/-- Every direction but `internal` makes a net a port. -/
def isPort (d : Direction) : Bool :=
  d != .internal

/-- The word for the direction of a port is the keyword of its declaration. -/
theorem keyword?_title {d : Direction} (h : d.isPort = true) : d.keyword? = some d.title := by
  cases d with
  | «internal» => cases h
  | _ => rfl

/-- The words for the directions. -/
def vocabulary : Vocabulary Direction :=
  ⟨"direction", [Direction.input, .output, .inout, .internal].map fun d => (d.title, d)⟩

/-- Reads the word for a direction. -/
def read? (word : String) : Except Fault Direction :=
  vocabulary.read? word

end Direction

/-! ### Nets and buses -/

/-- A scalar net or one bit of a bus. -/
inductive Net where
  | scalar (name : String)
  | bit (bus : String) (index : Nat)
  deriving DecidableEq, Repr

namespace Net

/-- A net as it is written in access functions. -/
def name : Net → String
  | .scalar name => name
  | .bit bus index => bus ++ "[" ++ toString index ++ "]"

/-- A net as the beginning of an identifier: the brackets of a bit become `_$` and `$`. -/
def ident : Net → String
  | .scalar name => name
  | .bit bus index => bus ++ "_$" ++ toString index ++ "$"

end Net

/-- A bus of `width` bits, numbered from 0. -/
structure Bus where
  name : String
  width : Nat
  deriving DecidableEq, Repr

namespace Bus

/-- The bits of a bus, from bit 0 up. -/
def bits (b : Bus) : List Net :=
  (List.range b.width).map (Net.bit b.name)

/-- The bit with a given index. -/
def bit? (b : Bus) (index : Nat) : Except Fault Net :=
  if index < b.width then .ok (.bit b.name index)
  else .error (.outOfRange (.busIndex b.name index b.width))

/-- The indices of a slice: from `lo` up to `hi` if `hi` is not below `lo`, else from `lo` down to
`hi`, every `step`-th index in both cases. -/
def sliceIndices (hi lo step : Nat) : List Nat :=
  if lo ≤ hi then (List.range ((hi - lo) / step + 1)).map fun k => lo + k * step
  else (List.range ((lo - hi) / step + 1)).map fun k => lo - k * step

/-- The bits of a slice. Both ends have to be bits of the bus and the step has to be positive. -/
def slice? (b : Bus) (hi lo step : Nat) : Except Fault (List Net) := do
  if step = 0 then .error (.outOfRange .sliceStep)
  else
    let _ ← b.bit? hi
    let _ ← b.bit? lo
    return (sliceIndices hi lo step).map (Net.bit b.name)

end Bus

/-- The outcome of declaring a net of arbitrary width: a scalar for width 1, else a bus. -/
inductive Nets where
  | scalar (n : Net)
  | bus (b : Bus)
  deriving DecidableEq, Repr

namespace Nets

/-- The scalar net, if it is one. -/
def net? : Nets → Option Net
  | .scalar n => some n
  | .bus _ => none

/-- The bus, if it is one. -/
def bus? : Nets → Option Bus
  | .scalar _ => none
  | .bus b => some b

end Nets

/-! ### Branches -/

/-- The two quantities of a branch. -/
inductive Nature where
  | potential
  | flow
  deriving DecidableEq, Repr

/-- A branch from `positive` to `negative`, or to ground if there is no other net. -/
structure Branch where
  nature : Nature
  positive : Net
  negative : Option Net
  deriving DecidableEq, Repr

namespace Branch

/-- The potential of a net against ground. -/
def potential (positive : Net) : Branch :=
  ⟨.potential, positive, none⟩

/-- The flow from a net to ground. -/
def flow (positive : Net) : Branch :=
  ⟨.flow, positive, none⟩

/-- The potential between two nets. -/
def potentialBetween (positive negative : Net) : Branch :=
  ⟨.potential, positive, some negative⟩

/-- The flow between two nets. -/
def flowBetween (positive negative : Net) : Branch :=
  ⟨.flow, positive, some negative⟩

/-- The access function of a branch, such as `V(a)` or `I(a,b)`. -/
def text (b : Branch) : String :=
  let access := match b.nature with
    | .potential => "V"
    | .flow => "I"
  match b.negative with
  | none => access ++ "(" ++ b.positive.name ++ ")"
  | some negative => access ++ "(" ++ b.positive.name ++ "," ++ negative.name ++ ")"

end Branch

end Stimulus
