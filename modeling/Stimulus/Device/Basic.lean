import Stimulus.Module.Basic

/-!
# What devices have in common

A **device** declares its variables and adds its contributions when it is installed on a net.
Afterwards its operations only give statements, which are placed into a script. The names of its
variables start with the net and end with a dollar sign.

## Main definitions

* `Net.owned`, the name of something that belongs to the device on a net
* `Edges`, the times that an output takes to rise and to fall
-/

namespace Stimulus

/-- The name of a part of the device on a net. -/
def Net.owned (pin : Net) (part : String) : String :=
  pin.ident ++ "_$" ++ part ++ "$"

/-- The potential of a net against ground. -/
def Net.potential (pin : Net) : Expr .real :=
  .access (.potential pin)

/-- The flow from a net to ground. -/
def Net.flow (pin : Net) : Expr .real :=
  .access (.flow pin)

/-- Adds a contribution to the epilogue. -/
def Module.contribute (branch : Branch) (value : Expr .real) : Build Unit :=
  Module.addEpilogue (.command (branch.contribute value))

/-- The defaults of the devices of a module. -/
def Module.deviceDefaults : Build DeviceDefaults := do
  return (← get).options.devices

/-- The variables that hold how long an output takes to rise and to fall. -/
structure Edges where
  rise : Variable .real
  fall : Variable .real
  deriving DecidableEq, Repr

namespace Edges

/-- Declares both times under names that `owned` gives them. -/
def declare (owned : String → String) : Build Edges := do
  let defaults ← Module.deviceDefaults
  let rise ← Module.namedVariable (owned "rise") (.real defaults.riseTime)
  let fall ← Module.namedVariable (owned "fall") (.real defaults.fallTime)
  return ⟨rise, fall⟩

/-- A value whose steps take the two times. -/
def smooth (e : Edges) (value : Expr .real) : Expr .real :=
  .transition value (.real 0.0) e.rise.expr e.fall.expr

/-- Sets both times for every later change of the output. -/
def set (e : Edges) (rise fall : Expr .real) : Statement :=
  .ofCommands [e.rise.assign rise, e.fall.assign fall]

end Edges

end Stimulus
