import Stimulus.Device.Digital

/-!
# Clocks

A clock is a digital output that changes its level every half period while it is on. A timer on a
variable of the clock drives it: whenever the timer expires the level changes, and the timer is
set again if the clock is on or the level is high. A high phase is so allowed to end after the
clock has been turned off.
-/

namespace Stimulus

/-- A clock on a net. -/
structure Clock where
  driver : DigitalOutput
  level : Variable .bool
  isOn : Variable .bool
  halfPeriod : Variable .real
  time : Variable .real
  deriving DecidableEq, Repr

namespace Clock

/-- What a clock does when its timer expires. -/
def tick (c : Clock) : List Statement :=
  [.command c.level.toggle,
    .command (c.driver.write c.level.expr),
    .branch (c.isOn.expr.or c.level.expr)
      [.command (c.time.assign (Expr.now.add c.halfPeriod.expr))] []]

/-- Installs a clock, which is off at first. Its timer is set to a time that no simulation
reaches. -/
def install (pin domain : Net) : Build Clock := do
  let driver ← DigitalOutput.install pin domain
  let level ← Module.namedVariable (pin.owned "out") (.bool false)
  let isOn ← Module.namedVariable (pin.owned "isOn") (.bool false)
  let halfPeriod ← Module.namedVariable (pin.owned "halfPeriod") (.real 0.5e-6)
  let time ← Module.namedVariable (pin.owned "time") (.real 1e9)
  let clock : Clock := ⟨driver, level, isOn, halfPeriod, time⟩
  Module.addPrologue (.block (.onEvent (.after time.expr)) clock.tick)
  return clock

/-- Turns the clock on with a frequency, starting a nanosecond later. -/
def on (c : Clock) (frequency : Expr .real) : Statement :=
  .ofCommands
    [c.halfPeriod.assign (Expr.div (.real 0.5) frequency),
      c.isOn.assign (.bool true),
      c.time.assign (Expr.now.add (.real 1e-9))]

/-- Turns the clock off. -/
def off (c : Clock) : Statement :=
  .command (c.isOn.assign (.bool false))

end Clock

end Stimulus
