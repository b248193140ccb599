import Stimulus.Device.Basic
import Stimulus.Event

/-!
# Digital pins

The levels of a digital pin refer to a supply net, its **domain**. An output drives the potential
of its domain or zero through a series resistance. An input loads its net with a small capacitance
and compares the net with half the potential of the domain. A bidirectional pin has a driver on a
net of its own, which a switched conductance connects to the pin.

## Main definitions

* `DigitalOutput`, `DigitalInput`, `DigitalPin`
* `Module.loadInput`, `Net.level`, `Net.crossing`: what inputs and bidirectional pins share
-/

namespace Stimulus

/-! ### Reading -/

/-- Loads a net with the capacitance of an input. -/
def Module.loadInput (pin : Net) : Build Unit := do
  let defaults ← Module.deviceDefaults
  Module.contribute (.flow pin)
    ((Expr.call .ddt pin.potential).mul (.real defaults.inputCapacitance))

/-- The potential that divides the two levels of a domain. -/
def Net.middle (domain : Net) : Expr .real :=
  domain.potential.div (.real 2.0)

/-- Whether a net is at the upper level of its domain. -/
def Net.level (pin domain : Net) : Expr .bool :=
  .comparison .gt rfl pin.potential domain.middle

/-- The event that a net changes its level. -/
def Net.crossing (pin domain : Net) (edge : Edge) : Event :=
  .cross ⟨pin.potential, domain.middle, .none⟩ edge

/-! ### Outputs -/

/-- A digital output. -/
structure DigitalOutput where
  pin : Net
  domain : Net
  value : Variable .bool
  edges : Edges
  deriving DecidableEq, Repr

namespace DigitalOutput

/-- Installs an output. -/
def install (pin domain : Net) : Build DigitalOutput := do
  let value ← Module.namedVariable (pin.owned "value") (.bool false)
  let edges ← Edges.declare pin.owned
  let defaults ← Module.deviceDefaults
  Module.contribute (.potential pin)
    (domain.potential.mul (edges.smooth (.indicator value.expr)))
  Module.contribute (.potential pin) (pin.flow.mul (.real defaults.seriesResistance))
  return ⟨pin, domain, value, edges⟩

/-- Sets the level. -/
def write (d : DigitalOutput) (level : Expr .bool) : Command :=
  d.value.assign level

end DigitalOutput

/-! ### Inputs -/

/-- A digital input. -/
structure DigitalInput where
  pin : Net
  domain : Net
  deriving DecidableEq, Repr

namespace DigitalInput

/-- Installs an input. -/
def install (pin domain : Net) : Build DigitalInput := do
  Module.loadInput pin
  return ⟨pin, domain⟩

/-- The level of the input. -/
def read (d : DigitalInput) : Expr .bool :=
  d.pin.level d.domain

/-- The event that the input changes its level. -/
def edge (d : DigitalInput) : Edge → Event :=
  d.pin.crossing d.domain

end DigitalInput

/-! ### Bidirectional pins -/

/-- A bidirectional digital pin. -/
structure DigitalPin where
  pin : Net
  domain : Net
  value : Variable .bool
  enable : Variable .bool
  edges : Edges
  deriving DecidableEq, Repr

namespace DigitalPin

/-- Installs a bidirectional pin, which does not drive its net at first. -/
def install (pin domain : Net) : Build DigitalPin := do
  let driver ← Module.net (pin.owned "aux") .internal
  let value ← Module.namedVariable (pin.owned "value") (.bool false)
  let enable ← Module.namedVariable (pin.owned "enable") (.bool false)
  let edges ← Edges.declare pin.owned
  let defaults ← Module.deviceDefaults
  Module.contribute (.potential driver)
    (domain.potential.mul (edges.smooth (.indicator value.expr)))
  Module.contribute (.flowBetween pin driver)
    (((Expr.access (.potentialBetween pin driver)).mul
      (edges.smooth (.indicator enable.expr))).div (.real defaults.seriesResistance))
  Module.loadInput pin
  return ⟨pin, domain, value, enable, edges⟩

/-- Drives the net with a level. -/
def write (d : DigitalPin) (level : Expr .bool) : List Command :=
  [d.enable.assign (.bool true), d.value.assign level]

/-- Leaves the net to others. -/
def release (d : DigitalPin) : Command :=
  d.enable.assign (.bool false)

/-- The level of the pin. -/
def read (d : DigitalPin) : Expr .bool :=
  d.pin.level d.domain

/-- The event that the pin changes its level. -/
def edge (d : DigitalPin) : Edge → Event :=
  d.pin.crossing d.domain

end DigitalPin

end Stimulus
