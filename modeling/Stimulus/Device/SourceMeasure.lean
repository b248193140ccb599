import Stimulus.Device.Basic

/-!
# Source-measure units

A source-measure unit forces a voltage, a current or a resistance on its net and reads the other
quantities back. All three modes drive the same contributions. A regulator pulls the current to
one of two limits, depending on how far the net is from the wanted potential; a leak and a small
capacitance keep the solution steady. A mode is a choice of these parameters:

| mode       | potential | upper limit | lower limit | resistance         |
|------------|-----------|-------------|-------------|--------------------|
| voltage    | v         | abs lim     | -abs lim    | 1e4 / (abs lim + 1e-9) |
| current    | lim       | max i 0     | min i 0     | 1e4 / (abs i + 1e-9)   |
| resistance | 0         | 0           | 0           | r                  |

The parameters that a mode is about take effect at once, the others a microsecond later.

## Main definitions

* `SourceMeasure.install`
* `SourceMeasure.applyVoltage`, `SourceMeasure.applyCurrent`, `SourceMeasure.applyResistance`
-/

namespace Stimulus

/-- A source-measure unit on a net. -/
structure SourceMeasure where
  pin : Net
  potential : Variable .real
  upper : Variable .real
  lower : Variable .real
  resistance : Variable .real
  potentialDelay : Variable .real
  limitDelay : Variable .real
  resistanceDelay : Variable .real
  edge : Variable .real
  deriving DecidableEq, Repr

namespace SourceMeasure

/-- One half, which takes a sum to a mean. -/
def half : Expr .real :=
  .real 0.5

/-- How long a parameter waits that must not change before the others. -/
def later : Expr .real :=
  .real 1e-6

/-- The current between the limits that the regulator asks for. -/
def regulator (gain : Float) (pin : Net) (potential upper lower : Expr .real) : Expr .real :=
  let pull := Expr.call .tanh (Expr.mul (.real gain) (pin.potential.sub potential))
  ((pull.mul half).mul (upper.sub lower)).add (half.mul (upper.add lower))

/-- Installs a source-measure unit. Until a mode is chosen its resistance is high and its limits
are zero. -/
def install (pin : Net) : Build SourceMeasure := do
  let defaults ← Module.deviceDefaults
  let declare (part : String) (initial : Float) : Build (Variable .real) :=
    Module.namedVariable (pin.owned part) (.real initial)
  let potential ← declare "volt" 0.0
  let upper ← declare "maxCur" 0.0
  let lower ← declare "minCur" 0.0
  let resistance ← declare "res" 1e9
  let potentialDelay ← declare "vDelay" 0.0
  let limitDelay ← declare "iDelay" 0.0
  let resistanceDelay ← declare "rDelay" 0.0
  let edge ← declare "riseFall" defaults.riseTime
  let smooth (value delay : Variable .real) : Expr .real :=
    .transition value.expr delay.expr edge.expr edge.expr
  Module.contribute (.flow pin)
    (regulator defaults.smuGain pin (smooth potential potentialDelay) (smooth upper limitDelay)
      (smooth lower limitDelay))
  Module.contribute (.flow pin) (pin.potential.div (smooth resistance resistanceDelay))
  Module.contribute (.flow pin)
    ((Expr.call .ddt pin.potential).mul (.real defaults.smuCapacitance))
  return { pin, potential, upper, lower, resistance, potentialDelay, limitDelay,
           resistanceDelay, edge }

/-- The resistance that belongs to a limit of a given size. -/
def resistanceFor (size : Expr .real) : Expr .real :=
  Expr.div (.real 1e4) (size.add (.real 1e-9))

/-- Forces a potential and limits the current in both directions. -/
def applyVoltage (s : SourceMeasure) (volts limit : Expr .real) : Statement :=
  let limit := limit.absReal
  .ofCommands
    [s.potential.assign volts,
      s.upper.assign limit,
      s.lower.assign limit.negReal,
      s.resistance.assign (resistanceFor limit),
      s.potentialDelay.assign (.real 0.0),
      s.limitDelay.assign later,
      s.resistanceDelay.assign later]

/-- Forces a current and limits the potential. -/
def applyCurrent (s : SourceMeasure) (amps limit : Expr .real) : Statement :=
  let size := amps.absReal
  .ofCommands
    [s.potential.assign limit,
      s.upper.assign (half.mul (amps.add size)),
      s.lower.assign (half.mul (amps.sub size)),
      s.resistance.assign (resistanceFor size),
      s.potentialDelay.assign later,
      s.limitDelay.assign (.real 0.0),
      s.resistanceDelay.assign (.real 0.0)]

/-- Turns the net into a resistor to ground. -/
def applyResistance (s : SourceMeasure) (ohms : Expr .real) : Statement :=
  .ofCommands
    [s.potential.assign (.real 0.0),
      s.upper.assign (.real 0.0),
      s.lower.assign (.real 0.0),
      s.resistance.assign ohms,
      s.potentialDelay.assign later]

/-- Sets how long every later change takes. -/
def setEdge (s : SourceMeasure) (edge : Expr .real) : Statement :=
  .command (s.edge.assign edge)

end SourceMeasure

end Stimulus
