import Stimulus.Device.Basic

/-!
# Sources

An ideal source drives the potential or the flow of its net. Its value steps at once, and its
output follows with the rise and fall times of the source.
-/

namespace Stimulus

/-- A source on a net. -/
structure Source where
  pin : Net
  value : Variable .real
  edges : Edges
  deriving DecidableEq, Repr

namespace Source

/-- Installs a source that drives the given branch of a net. -/
def install (branch : Net → Branch) (pin : Net) : Build Source := do
  let value ← Module.namedVariable (pin.owned "value") (.real 0.0)
  let edges ← Edges.declare pin.owned
  Module.contribute (branch pin) (edges.smooth value.expr)
  return ⟨pin, value, edges⟩

/-- Installs a source that drives the potential. -/
def installVoltage : Net → Build Source :=
  install Branch.potential

/-- Installs a source that drives the flow. -/
def installCurrent : Net → Build Source :=
  install Branch.flow

/-- Sets the value of the source. -/
def apply (s : Source) (value : Expr .real) : Statement :=
  .command (s.value.assign value)

end Source

end Stimulus
