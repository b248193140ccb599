import Stimulus.Bench.Basic
import Stimulus.Device.Clock
import Stimulus.Device.DigitalBus
import Stimulus.Device.Source
import Stimulus.Device.SourceMeasure
import Stimulus.Sequence.Compile

/-!
# The bundled benches

Four benches that show the devices and the sequencer at work.

## Main definitions

* `Bench.bundled`, the benches in the order in which they are listed
* `Bench.find?`, a bench by its name
-/

namespace Stimulus.Bench

/-- A source that steps to 2 V. -/
def voltageStep : Bench where
  name := "vdc_step"
  description := "Voltage source with programmed edges stepping to 2 V"
  steps := do
    let pin ← Module.net "pin3" .output
    let source ← Source.installVoltage pin
    let _ ← Module.sequence (.bool true)
      [source.edges.set (.real 30e-6) (.real 30e-6), source.apply (.real 2.0)]
    return []

/-- Two sequences that wait for the same event. -/
def sharedEvent : Bench where
  name := "shared_event"
  description := "Two sequences resuming on the same crossing event"
  steps := do
    let pin ← Module.net "pin7" .input
    let out ← Module.net "out" .output
    let source ← Source.installVoltage out
    let crossing : Event := .cross ⟨pin.potential, .real 0.5, .none⟩ .both
    let _ ← Module.sequence (.bool true) [.waitFor crossing, source.apply (.real 1.0)]
    let _ ← Module.sequence (.bool true)
      [.wait (.real 10.0), .waitFor crossing,
        .command (.print .strobe none "second crossing at %g" [⟨_, Expr.now⟩])]
    return []

/-- A source-measure unit that sweeps a voltage and reads the current. -/
def sweep : Bench where
  name := "smu_sweep"
  description := "SMU voltage sweep with current readout and markers"
  steps := do
    let pin ← Module.net "dut" .inout
    let smu ← SourceMeasure.install pin
    let marker ← Module.marker "sweep"
    let step ← Module.namedVariable "step" (.integer 0)
    let volts := (Expr.ofInteger step.expr).mul (.real 0.25)
    let loop ← Build.ofExcept <| Statement.repeat? (.integer 8)
      [smu.applyVoltage volts (.real 1e-3),
        .wait (.real 20.0),
        .command (.print .strobe none "step=%d v=%g i=%g"
          [⟨_, step.expr⟩, ⟨_, pin.potential⟩, ⟨_, pin.flow⟩]),
        .command step.increment]
    let (start, marker) := marker.mark "SWEEP_START"
    let (stop, marker) := marker.mark "SWEEP_END"
    let _ ← Module.sequence (.bool true)
      [smu.setEdge (.real 1e-6), start, loop, stop,
        smu.applyCurrent (.real (-10e-6)) (.real 3.3),
        .wait (.real 50.0),
        smu.applyResistance (.real 1e6)]
    return [marker]

/-- A serial interface that writes a word and checks what comes back. -/
def serialWrite : Bench where
  name := "spi_write"
  description := "Serial write with clock, address bus and readback check"
  steps := do
    let vdd ← Module.net "vdd" .input
    let selectNet ← Module.net "cs" .output
    let clockNet ← Module.net "sck" .output
    let outNet ← Module.net "mosi" .output
    let inNet ← Module.net "miso" .input
    let addressNets ← Module.bus "addr" 4 .output
    let select ← DigitalOutput.install selectNet vdd
    let clock ← Clock.install clockNet vdd
    let out ← DigitalOutput.install outNet vdd
    let input ← DigitalInput.install inNet vdd
    let address ← OutputBus.install addressNets vdd
    let marker ← Module.marker "spi"
    let word ← Module.namedVariable "word" (.integer 0xA5)
    let bit ← Module.namedVariable "bit" (.integer 7)
    let errors ← Module.namedVariable "errors" (.integer 0)
    let expected := word.expr.bit bit.expr
    let check ← Build.ofExcept <|
      Conditional.new? (input.read.xor expected) [.command errors.increment]
    let shift ← Build.ofExcept <| Statement.while? (.comparison .ge rfl bit.expr (.integer 0))
      [.command (out.write expected),
        .wait (.real 0.5),
        check.statement,
        .command bit.decrement,
        .wait (.real 0.5)]
    let setAddress ← Build.ofExcept (address.write? (.host 0b1010))
    let (start, marker) := marker.mark "FRAME_START"
    let (stop, marker) := marker.mark "FRAME_END"
    let _ ← Module.sequence (.bool true)
      [.command (select.write (.bool true)),
        setAddress,
        clock.on (.real 1e6),
        .wait (.real 1.0),
        .command (select.write (.bool false)),
        start,
        shift,
        clock.off,
        .command (select.write (.bool true)),
        stop,
        .command (.print .strobe none "spi errors=%d" [⟨_, errors.expr⟩])]
    return [marker]

/-- The bundled benches. -/
def bundled : List Bench :=
  [voltageStep, sharedEvent, sweep, serialWrite]

/-- The bundled bench with a given name. -/
def find? (name : String) : Option Bench :=
  bundled.find? (·.name == name)

end Stimulus.Bench
