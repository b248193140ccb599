/-!
# Options

The choices that apply to a whole module: how long lines are wrapped, how the header is stamped,
how exact the sequencer's timers are, and the electrical defaults of the devices.
-/

namespace Stimulus

/-- How the header of an emitted module is stamped. -/
inductive Stamp where
  /-- The time at which the module is made. -/
  | now
  /-- A fixed text, so that the output can be reproduced. -/
  | fixed (text : String)
  deriving DecidableEq, Repr

/-- The text of a stamp, given the text of the present time. -/
def Stamp.resolve (present : String) : Stamp → String
  | .now => present
  | .fixed text => text

/-- Electrical defaults of the devices. -/
structure DeviceDefaults where
  /-- How long outputs take to rise at first, in seconds. -/
  riseTime : Float
  /-- How long outputs take to fall at first, in seconds. -/
  fallTime : Float
  /-- The resistance of a digital driver, in ohms. -/
  seriesResistance : Float
  /-- The capacitance of a digital receiver, in farads. -/
  inputCapacitance : Float
  /-- The gain inside the regulator of a source-measure unit. -/
  smuGain : Float
  /-- The capacitance that steadies the pin of a source-measure unit, in farads. -/
  smuCapacitance : Float

/-- The defaults of the devices if nothing else is asked for. -/
def DeviceDefaults.standard : DeviceDefaults :=
  ⟨1e-9, 1e-9, 100.0, 10e-15, 50.0, 1e-12⟩

/-- The options of a module. -/
structure Options where
  /-- Lines are wrapped once they reach this column. -/
  wrapColumn : Nat
  /-- The tolerance of the timers that drive sequences, in seconds. -/
  timerTolerance : Option Float
  header : Stamp
  devices : DeviceDefaults

namespace Options

/-- The options if nothing else is asked for. -/
def standard : Options :=
  ⟨80, none, .now, .standard⟩

/-- The standard options with a fixed stamp. -/
def reproducible (stamp : String) : Options :=
  { standard with header := .fixed stamp }

end Options

end Stimulus
