import Stimulus.Device.Basic

/-!
# Switches

A switch connects two nets by a conductance. A conductance of zero opens it.
-/

namespace Stimulus

/-- A switch between two nets. -/
structure Switch where
  first : Net
  second : Net
  conductance : Variable .real
  edges : Edges
  deriving DecidableEq, Repr

namespace Switch

/-- The name of a part of the switch between two nets. -/
def owned (first second : Net) (part : String) : String :=
  first.ident ++ "_" ++ second.owned part

/-- Installs a switch, which is open at first. -/
def install (first second : Net) : Build Switch := do
  let conductance ← Module.namedVariable (owned first second "cond") (.real 0.0)
  let edges ← Edges.declare (owned first second)
  Module.contribute (.flowBetween first second)
    ((Expr.access (.potentialBetween first second)).mul (edges.smooth conductance.expr))
  return ⟨first, second, conductance, edges⟩

/-- Sets the conductance. -/
def set (s : Switch) (siemens : Expr .real) : Statement :=
  .command (s.conductance.assign siemens)

end Switch

end Stimulus
