import Stimulus.Device.Clock
import Stimulus.Device.DigitalBus
import Stimulus.Device.Marker
import Stimulus.Device.Source
import Stimulus.Device.SourceMeasure
import Stimulus.Device.Switch
import Stimulus.Proofs.Registration

/-!
# Histories

A module is the product of its **history**: the operations that were run on it, one after the
other, no matter whether they succeeded. Operations are what a user can do, down to the
installation of a device on a bus.

An operation runs a list of registrations until one of them fails (`Operation.build_eq`). So what
is kept by every registration is kept by every history, and devices need no proofs of their own.

## Main results

* `Operation.build_eq`: an operation runs its registrations.
* `Module.after_keeps`: what every registration keeps is kept by every history.
* `Module.after_ok`: a module without a fault is the product of registrations that succeeded.
-/

namespace Stimulus

open Build

/-! ### Operations -/

/-- What a user can do with a module. -/
inductive Operation where
  | net (name : String) (direction : Direction)
  | bus (name : String) (width : Nat) (direction : Direction)
  | electrical (name : String) (width : Nat) (direction : Direction)
  | parameter (name : String) (default : Value)
  | anonymousVariable (initial : Value)
  | namedVariable (name : String) (initial : Value)
  | addPrologue (s : Statement)
  | addBody (s : Statement)
  | addEpilogue (s : Statement)
  | sequence (guard : Expr .bool) (items : List Statement)
  | marker (tag : String)
  | voltageSource (pin : Net)
  | currentSource (pin : Net)
  | sourceMeasure (pin : Net)
  | digitalOutput (pin domain : Net)
  | digitalInput (pin domain : Net)
  | digitalPin (pin domain : Net)
  | clock (pin domain : Net)
  | switch (first second : Net)
  | outputBus (wires : Bus) (domain : Net)
  | inputBus (wires : Bus) (domain : Net)
  | pinBus (wires : Bus) (domain : Net)

/-- The construction step of an operation. Its result is left out: it holds nothing but names. -/
def Operation.build : Operation → Build Unit
  | .net name direction => do
    let _ ← Module.net name direction
    return ()
  | .bus name width direction => do
    let _ ← Module.bus name width direction
    return ()
  | .electrical name width direction => do
    let _ ← Module.electrical name width direction
    return ()
  | .parameter name default => do
    let _ ← Module.parameter name default.expr
    return ()
  | .anonymousVariable initial => do
    let _ ← Module.anonymousVariable initial.expr
    return ()
  | .namedVariable name initial => do
    let _ ← Module.namedVariable name initial.expr
    return ()
  | .addPrologue s => Module.addPrologue s
  | .addBody s => Module.addBody s
  | .addEpilogue s => Module.addEpilogue s
  | .sequence guard items => do
    let _ ← Module.sequence guard items
    return ()
  | .marker tag => do
    let _ ← Module.marker tag
    return ()
  | .voltageSource pin => do
    let _ ← Source.installVoltage pin
    return ()
  | .currentSource pin => do
    let _ ← Source.installCurrent pin
    return ()
  | .sourceMeasure pin => do
    let _ ← SourceMeasure.install pin
    return ()
  | .digitalOutput pin domain => do
    let _ ← DigitalOutput.install pin domain
    return ()
  | .digitalInput pin domain => do
    let _ ← DigitalInput.install pin domain
    return ()
  | .digitalPin pin domain => do
    let _ ← DigitalPin.install pin domain
    return ()
  | .clock pin domain => do
    let _ ← Clock.install pin domain
    return ()
  | .switch first second => do
    let _ ← Switch.install first second
    return ()
  | .outputBus wires domain => do
    let _ ← OutputBus.install wires domain
    return ()
  | .inputBus wires domain => do
    let _ ← InputBus.install wires domain
    return ()
  | .pinBus wires domain => do
    let _ ← PinBus.install wires domain
    return ()

/-! ### Devices as registrations -/

/-- The registration of a contribution. -/
def Registration.contribution (branch : Branch) (value : Expr .real) : Registration :=
  .epilogue (.command (branch.contribute value))

/-- The registration of a real variable with a literal as its initial value. -/
def Registration.quantity (name : String) (initial : Float) : Registration :=
  .named name ⟨_, .real initial⟩

/-- The registration of a bool variable that is false at first. -/
def Registration.flag (name : String) : Registration :=
  .named name ⟨_, .bool false⟩

section Devices

variable (d : DeviceDefaults)

/-- The times that belong to an owner. -/
def Edges.ownedBy (owned : String → String) : Edges :=
  ⟨⟨owned "rise"⟩, ⟨owned "fall"⟩⟩

/-- The registrations of the two times of an output. -/
def Edges.registrations (owned : String → String) : List Registration :=
  [.quantity (owned "rise") d.riseTime, .quantity (owned "fall") d.fallTime]

/-- The registrations of a source. -/
def Source.registrations (branch : Net → Branch) (pin : Net) : List Registration :=
  .quantity (pin.owned "value") 0.0 :: Edges.registrations d pin.owned ++
    [.contribution (branch pin)
      ((Edges.ownedBy pin.owned).smooth (.ident (pin.owned "value")))]

/-- The registrations of a source-measure unit. -/
def SourceMeasure.registrations (pin : Net) : List Registration :=
  let smooth (value delay : String) : Expr .real :=
    .transition (.ident (pin.owned value)) (.ident (pin.owned delay))
      (.ident (pin.owned "riseFall")) (.ident (pin.owned "riseFall"))
  [.quantity (pin.owned "volt") 0.0, .quantity (pin.owned "maxCur") 0.0,
    .quantity (pin.owned "minCur") 0.0, .quantity (pin.owned "res") 1e9,
    .quantity (pin.owned "vDelay") 0.0, .quantity (pin.owned "iDelay") 0.0,
    .quantity (pin.owned "rDelay") 0.0, .quantity (pin.owned "riseFall") d.riseTime,
    .contribution (.flow pin)
      (regulator d.smuGain pin (smooth "volt" "vDelay") (smooth "maxCur" "iDelay")
        (smooth "minCur" "iDelay")),
    .contribution (.flow pin) (pin.potential.div (smooth "res" "rDelay")),
    .contribution (.flow pin) ((Expr.call .ddt pin.potential).mul (.real d.smuCapacitance))]

/-- The registrations of a digital output. -/
def DigitalOutput.registrations (pin domain : Net) : List Registration :=
  .flag (pin.owned "value") :: Edges.registrations d pin.owned ++
    [.contribution (.potential pin)
      (domain.potential.mul
        ((Edges.ownedBy pin.owned).smooth (.indicator (.ident (pin.owned "value"))))),
    .contribution (.potential pin) (pin.flow.mul (.real d.seriesResistance))]

/-- The registrations of a digital input. -/
def DigitalInput.registrations (pin : Net) : List Registration :=
  [.contribution (.flow pin)
    ((Expr.call .ddt pin.potential).mul (.real d.inputCapacitance))]

/-- The registrations of a bidirectional pin. -/
def DigitalPin.registrations (pin domain : Net) : List Registration :=
  let driver := Net.scalar (pin.owned "aux")
  let edges := Edges.ownedBy pin.owned
  [.net (pin.owned "aux") 1 .internal, .flag (pin.owned "value"), .flag (pin.owned "enable")]
    ++ Edges.registrations d pin.owned ++
    [.contribution (.potential driver)
      (domain.potential.mul (edges.smooth (.indicator (.ident (pin.owned "value"))))),
    .contribution (.flowBetween pin driver)
      (((Expr.access (.potentialBetween pin driver)).mul
        (edges.smooth (.indicator (.ident (pin.owned "enable"))))).div
          (.real d.seriesResistance))]
    ++ DigitalInput.registrations d pin

/-- The clock on a net. -/
def Clock.ofNets (pin domain : Net) : Clock :=
  ⟨⟨pin, domain, ⟨pin.owned "value"⟩, .ownedBy pin.owned⟩, ⟨pin.owned "out"⟩,
    ⟨pin.owned "isOn"⟩, ⟨pin.owned "halfPeriod"⟩, ⟨pin.owned "time"⟩⟩

/-- The registrations of a clock. -/
def Clock.registrations (pin domain : Net) : List Registration :=
  DigitalOutput.registrations d pin domain ++
    [.flag (pin.owned "out"), .flag (pin.owned "isOn"),
      .quantity (pin.owned "halfPeriod") 0.5e-6, .quantity (pin.owned "time") 1e9,
      .prologue (.block (.onEvent (.after (.ident (pin.owned "time"))))
        (Clock.ofNets pin domain).tick)]

/-- The registrations of a switch. -/
def Switch.registrations (first second : Net) : List Registration :=
  .quantity (Switch.owned first second "cond") 0.0 ::
    Edges.registrations d (Switch.owned first second) ++
    [.contribution (.flowBetween first second)
      ((Expr.access (.potentialBetween first second)).mul
        ((Edges.ownedBy (Switch.owned first second)).smooth
          (.ident (Switch.owned first second "cond"))))]

/-- The registrations of a marker. -/
def Marker.registrations (tag : String) : List Registration :=
  [.net ("MARK_" ++ tag) 1 .output, .flag ("_$markSt_" ++ tag),
    .contribution (.potential (.scalar ("MARK_" ++ tag)))
      (.transition (.indicator (.ident ("_$markSt_" ++ tag))) (.real 0.0)
        (.real Marker.edgeTime) (.real Marker.edgeTime)),
    .marker tag]

/-- The registrations of an operation, in the order in which they are run. -/
def Operation.registrations : Operation → List Registration
  | .net name direction => [.net name 1 direction]
  | .bus name width direction => [.net name width direction]
  | .electrical name width direction => [.net name width direction]
  | .parameter name default => [.parameter name default]
  | .anonymousVariable initial => [.anonymous initial]
  | .namedVariable name initial => [.named name initial]
  | .addPrologue s => [.prologue s]
  | .addBody s => [.body s]
  | .addEpilogue s => [.epilogue s]
  | .sequence guard items => [.sequence guard items]
  | .marker tag => Marker.registrations tag
  | .voltageSource pin => Source.registrations d .potential pin
  | .currentSource pin => Source.registrations d .flow pin
  | .sourceMeasure pin => SourceMeasure.registrations d pin
  | .digitalOutput pin domain => DigitalOutput.registrations d pin domain
  | .digitalInput pin _ => DigitalInput.registrations d pin
  | .digitalPin pin domain => DigitalPin.registrations d pin domain
  | .clock pin domain => Clock.registrations d pin domain
  | .switch first second => Switch.registrations d first second
  | .outputBus wires domain => wires.bits.flatMap (DigitalOutput.registrations d · domain)
  | .inputBus wires _ => wires.bits.flatMap (DigitalInput.registrations d ·)
  | .pinBus wires domain => wires.bits.flatMap (DigitalPin.registrations d · domain)

end Devices

/-! ### Operations run their registrations -/

section Normalisation

variable {α β : Type}

/-- Reading the defaults and going on, as one step at a module. -/
theorem deviceDefaults_bind_apply (f : DeviceDefaults → Build α) (m : Module) :
    (Module.deviceDefaults >>= f) m = f m.options.devices m :=
  rfl

/-- Registrations leave the defaults alone, so these can be read before them. -/
theorem runAll_deviceDefaults (rs : List Registration) (f : DeviceDefaults → Build α) :
    (do Registration.runAll rs; let d ← Module.deviceDefaults; f d)
      = (do let d ← Module.deviceDefaults; Registration.runAll rs; f d) := by
  have keeps : Relates (fun m _ m' => m'.options = m.options) (Registration.runAll rs) := by
    induction rs with
    | nil => exact tolerates_options.relates_pure _
    | cons r rs ih =>
        exact tolerates_options.relates_bind (r.build_relates tolerates_options) fun _ => ih
  funext m
  rw [deviceDefaults_bind_apply]
  cases h : Registration.runAll rs m with
  | ok u m₁ =>
      rw [bind_of_ok h, bind_of_ok h, deviceDefaults_bind_apply, keeps.ok h]
  | error e m₁ => rw [bind_of_error h, bind_of_error h]

/-- Reading the defaults twice is reading them once. -/
theorem deviceDefaults_twice (f : DeviceDefaults → DeviceDefaults → Build α) :
    (do let d ← Module.deviceDefaults; let d' ← Module.deviceDefaults; f d d')
      = (do let d ← Module.deviceDefaults; f d d) :=
  rfl

/-- Reading the defaults without using them does nothing. -/
theorem deviceDefaults_unused (x : Build α) :
    (do let _ ← Module.deviceDefaults; x) = x :=
  rfl

/-- Declaring a named variable is its registration. -/
theorem namedVariable_bind {k : Kind} (name : String) (initial : Expr k)
    (f : Variable k → Build α) :
    (Module.namedVariable name initial >>= f)
      = (do Registration.runAll [.named name ⟨k, initial⟩]; f ⟨name⟩) := by
  simp only [Registration.runAll, Registration.build, Module.namedVariable,
    Module.declareVariable, bind_assoc, pure_bind]

/-- Declaring a scalar net is its registration. -/
theorem net_bind (name : String) (direction : Direction) (f : Net → Build α) :
    (Module.net name direction >>= f)
      = (do Registration.runAll [.net name 1 direction]; f (.scalar name)) := by
  simp only [Registration.runAll, Registration.build, Module.net, bind_assoc, pure_bind]

/-- Adding a contribution is its registration. -/
theorem contribute_bind (branch : Branch) (value : Expr .real) (f : Unit → Build α) :
    (Module.contribute branch value >>= f)
      = (do Registration.runAll [.contribution branch value]; f ()) := by
  simp only [Registration.runAll, Registration.build, Registration.contribution,
    Module.contribute, bind_assoc, pure_bind]

/-- Adding to the prologue is its registration. -/
theorem addPrologue_bind (s : Statement) (f : Unit → Build α) :
    (Module.addPrologue s >>= f) = (do Registration.runAll [.prologue s]; f ()) := by
  simp only [Registration.runAll, Registration.build, bind_assoc, pure_bind]

/-- Two lists of registrations that follow each other are one. -/
theorem runAll_runAll (xs ys : List Registration) (f : Unit → Build α) :
    (do Registration.runAll xs; let u ← Registration.runAll ys; f u)
      = (do let u ← Registration.runAll (xs ++ ys); f u) := by
  simp only [Registration.runAll_append, bind_assoc]

end Normalisation

/-- Installing a source runs its registrations. -/
theorem Source.install_bind {α : Type} (branch : Net → Branch) (pin : Net)
    (f : Source → Build α) :
    (Source.install branch pin >>= f) = (do
      let d ← Module.deviceDefaults
      Registration.runAll (Source.registrations d branch pin)
      f ⟨pin, ⟨pin.owned "value"⟩, .ownedBy pin.owned⟩) := by
  simp only [Source.install, Edges.declare, bind_assoc, pure_bind, namedVariable_bind,
    contribute_bind, runAll_deviceDefaults, runAll_runAll]
  rfl

/-- Installing a source-measure unit runs its registrations. -/
theorem SourceMeasure.install_bind {α : Type} (pin : Net) (f : Build α) :
    (SourceMeasure.install pin >>= fun _ => f) = (do
      let d ← Module.deviceDefaults
      Registration.runAll (SourceMeasure.registrations d pin)
      f) := by
  simp only [SourceMeasure.install, bind_assoc, pure_bind, namedVariable_bind,
    contribute_bind, runAll_runAll]
  rfl

/-- Installing a digital output runs its registrations. -/
theorem DigitalOutput.install_bind {α : Type} (pin domain : Net) (f : DigitalOutput → Build α) :
    (DigitalOutput.install pin domain >>= f) = (do
      let d ← Module.deviceDefaults
      Registration.runAll (DigitalOutput.registrations d pin domain)
      f ⟨pin, domain, ⟨pin.owned "value"⟩, .ownedBy pin.owned⟩) := by
  simp only [DigitalOutput.install, Edges.declare, bind_assoc, pure_bind, namedVariable_bind,
    contribute_bind, runAll_deviceDefaults, runAll_runAll, deviceDefaults_twice]
  rfl

/-- Loading a net runs the registrations of an input. -/
theorem loadInput_bind {α : Type} (pin : Net) (f : Unit → Build α) :
    (Module.loadInput pin >>= f) = (do
      let d ← Module.deviceDefaults
      Registration.runAll (DigitalInput.registrations d pin)
      f ()) := by
  simp only [Module.loadInput, bind_assoc, contribute_bind]
  rfl

/-- Installing a digital input runs its registrations. -/
theorem DigitalInput.install_bind {α : Type} (pin domain : Net) (f : DigitalInput → Build α) :
    (DigitalInput.install pin domain >>= f) = (do
      let d ← Module.deviceDefaults
      Registration.runAll (DigitalInput.registrations d pin)
      f ⟨pin, domain⟩) := by
  simp only [DigitalInput.install, bind_assoc, pure_bind, loadInput_bind]

/-- Installing a bidirectional pin runs its registrations. -/
theorem DigitalPin.install_bind {α : Type} (pin domain : Net) (f : DigitalPin → Build α) :
    (DigitalPin.install pin domain >>= f) = (do
      let d ← Module.deviceDefaults
      Registration.runAll (DigitalPin.registrations d pin domain)
      f ⟨pin, domain, ⟨pin.owned "value"⟩, ⟨pin.owned "enable"⟩, .ownedBy pin.owned⟩) := by
  simp only [DigitalPin.install, Edges.declare, bind_assoc, pure_bind, namedVariable_bind,
    net_bind, contribute_bind, loadInput_bind, runAll_deviceDefaults, runAll_runAll,
    deviceDefaults_twice]
  rfl

/-- Installing a clock runs its registrations. -/
theorem Clock.install_bind {α : Type} (pin domain : Net) (f : Build α) :
    (Clock.install pin domain >>= fun _ => f) = (do
      let d ← Module.deviceDefaults
      Registration.runAll (Clock.registrations d pin domain)
      f) := by
  simp only [Clock.install, bind_assoc, pure_bind, namedVariable_bind, addPrologue_bind,
    DigitalOutput.install_bind, runAll_runAll]
  rfl

/-- Installing a switch runs its registrations. -/
theorem Switch.install_bind {α : Type} (first second : Net) (f : Build α) :
    (Switch.install first second >>= fun _ => f) = (do
      let d ← Module.deviceDefaults
      Registration.runAll (Switch.registrations d first second)
      f) := by
  simp only [Switch.install, Edges.declare, bind_assoc, pure_bind, namedVariable_bind,
    contribute_bind, runAll_deviceDefaults, runAll_runAll]
  rfl

/-- Installing a marker runs its registrations. -/
theorem Marker.install_bind {α : Type} (tag : String) (f : Build α) :
    (Module.marker tag >>= fun _ => f) = (do
      Registration.runAll (Marker.registrations tag)
      f) := by
  have note : (do modify fun m => { m with markers := m.markers ++ [tag] }; f)
      = (do Registration.runAll [.marker tag]; f) := by
    simp only [Registration.runAll, Registration.build, bind_assoc, pure_bind]
  simp only [Module.marker, bind_assoc, pure_bind, namedVariable_bind, net_bind,
    contribute_bind, note, runAll_runAll]
  rfl

/-- Installing a device on every net of a list runs the registrations of all of them. -/
theorem mapM_install_bind {α δ : Type} {install : Net → Build δ} {device : Net → δ}
    {registrations : DeviceDefaults → Net → List Registration}
    (h : ∀ {β : Type} (pin : Net) (f : δ → Build β), (install pin >>= f) = (do
      let d ← Module.deviceDefaults
      Registration.runAll (registrations d pin)
      f (device pin)))
    (pins : List Net) (f : List δ → Build α) :
    (pins.mapM install >>= f) = (do
      let d ← Module.deviceDefaults
      Registration.runAll (pins.flatMap (registrations d))
      f (pins.map device)) := by
  induction pins generalizing f with
  | nil => simp [Registration.runAll, deviceDefaults_unused]
  | cons pin pins ih =>
      simp only [List.mapM_cons, bind_assoc, pure_bind, h, ih, runAll_deviceDefaults,
        deviceDefaults_twice, runAll_runAll, List.flatMap_cons, List.map_cons]

/-- **Operations run their registrations.** The defaults are those of the module. -/
theorem Operation.build_eq (o : Operation) :
    o.build = (do
      let d ← Module.deviceDefaults
      Registration.runAll (o.registrations d)) := by
  have single (r : Registration) : r.build = Registration.runAll [r] := by
    simp only [Registration.runAll, bind_pure_unit]
  cases o with
  | net name direction =>
      simp only [build, registrations, Module.net, bind_assoc, pure_bind, bind_pure_unit]
      exact single (.net name 1 direction)
  | bus name width direction =>
      simp only [build, registrations, Module.bus, bind_assoc, pure_bind, bind_pure_unit]
      exact single (.net name width direction)
  | electrical name width direction =>
      simp only [build, registrations, Module.electrical, bind_assoc, pure_bind,
        bind_pure_unit]
      exact single (.net name width direction)
  | parameter name default => exact single (.parameter name default)
  | anonymousVariable initial => exact single (.anonymous initial)
  | namedVariable name initial => exact single (.named name initial)
  | addPrologue s => exact single (.prologue s)
  | addBody s => exact single (.body s)
  | addEpilogue s => exact single (.epilogue s)
  | sequence guard items => exact single (.sequence guard items)
  | marker tag =>
      simp only [build, registrations, Marker.install_bind, bind_pure_unit,
        deviceDefaults_unused]
  | voltageSource pin =>
      simp only [build, registrations, Source.installVoltage, Source.install_bind,
        bind_pure_unit]
  | currentSource pin =>
      simp only [build, registrations, Source.installCurrent, Source.install_bind,
        bind_pure_unit]
  | sourceMeasure pin =>
      simp only [build, registrations, SourceMeasure.install_bind, bind_pure_unit]
  | digitalOutput pin domain =>
      simp only [build, registrations, DigitalOutput.install_bind, bind_pure_unit]
  | digitalInput pin domain =>
      simp only [build, registrations, DigitalInput.install_bind, bind_pure_unit]
  | digitalPin pin domain =>
      simp only [build, registrations, DigitalPin.install_bind, bind_pure_unit]
  | clock pin domain => simp only [build, registrations, Clock.install_bind, bind_pure_unit]
  | «switch» first second =>
      simp only [build, registrations, Switch.install_bind, bind_pure_unit]
  | outputBus wires domain =>
      simp only [build, registrations, OutputBus.install, bind_assoc, pure_bind,
        mapM_install_bind (DigitalOutput.install_bind · domain), bind_pure_unit]
  | inputBus wires domain =>
      simp only [build, registrations, InputBus.install, bind_assoc, pure_bind,
        mapM_install_bind (DigitalInput.install_bind · domain), bind_pure_unit]
  | pinBus wires domain =>
      simp only [build, registrations, PinBus.install, bind_assoc, pure_bind,
        mapM_install_bind (DigitalPin.install_bind · domain), bind_pure_unit]

/-! ### Histories -/

/-- A relation that composed steps inherit holds of a run of registrations if it holds of each. -/
theorem Registration.runAll_relates {R : Module → Option Fault → Module → Prop} (hR : Composes R)
    {rs : List Registration} (h : ∀ r ∈ rs, Relates R r.build) : Relates R (runAll rs) := by
  induction rs with
  | nil => exact hR.relates_pure _
  | cons r rs ih =>
      rw [List.forall_mem_cons] at h
      exact hR.relates_bind h.1 fun _ => ih h.2

/-- A relation that composed steps inherit holds of an operation if it holds of its
registrations. -/
theorem Operation.build_relates_of {R : Module → Option Fault → Module → Prop} (hR : Composes R)
    {o : Operation} (h : ∀ d, ∀ r ∈ o.registrations d, Relates R r.build) :
    Relates R o.build := by
  rw [o.build_eq]
  exact fun m => Registration.runAll_relates hR (h m.options.devices) m

/-- A relation that composed steps inherit holds of every operation if it holds of every
registration. -/
theorem Operation.build_relates {R : Module → Option Fault → Module → Prop} (hR : Composes R)
    (h : ∀ r : Registration, Relates R r.build) (o : Operation) : Relates R o.build :=
  build_relates_of hR fun _ r _ => h r

namespace Module

/-- A module after a history. Operations that fail leave what they did before. -/
def after (m : Module) : List Operation → Module
  | [] => m
  | o :: rest =>
    match o.build m with
    | .ok _ m' => m'.after rest
    | .error _ m' => m'.after rest

/-- A history in two parts. -/
theorem after_append (m : Module) (history more : List Operation) :
    m.after (history ++ more) = (m.after history).after more := by
  induction history generalizing m with
  | nil => rfl
  | cons o rest ih =>
      rw [List.cons_append, after, after]
      split
      · exact ih _
      · exact ih _

/-- A history after its first operation. -/
theorem after_cons (m : Module) (o : Operation) (rest : List Operation) :
    m.after (o :: rest) = (m.after [o]).after rest :=
  m.after_append [o] rest

/-- A module after a single operation is related to the module before it. -/
theorem after_singleton {R : Module → Module → Prop} {o : Operation} {m : Module}
    (h : RelatesAt (fun m _ m' => R m m') o.build m) : R m (m.after [o]) := by
  unfold RelatesAt at h
  rw [after]
  cases hx : o.build m with
  | ok u m' =>
      rw [hx] at h
      exact h
  | error f m' =>
      rw [hx] at h
      exact h

/-- The registrations of a history. -/
def registrations (d : DeviceDefaults) (history : List Operation) : List Registration :=
  history.flatMap (·.registrations d)

/-- What every operation of a history keeps, be it successful or not, is kept by the history. -/
theorem after_keeps_of {I : Module → Prop} {m : Module} (hm : I m) {history : List Operation}
    (h : ∀ o ∈ history, Relates (fun m _ m' => I m → I m') o.build) : I (m.after history) := by
  induction history generalizing m with
  | nil => exact hm
  | cons o rest ih =>
      rw [List.forall_mem_cons] at h
      rw [after]
      split
      case h_1 hx => exact ih (h.1.ok hx hm) h.2
      case h_2 hx => exact ih (h.1.error hx hm) h.2

/-- What every registration keeps, be it successful or not, is kept by every history. -/
theorem after_keeps {I : Module → Prop}
    (hfail : ∀ m f, I m → I { m with fault := f })
    (h : ∀ r : Registration, Relates (fun m _ m' => I m → I m') r.build)
    {m : Module} (hm : I m) (history : List Operation) : I (m.after history) := by
  have hI : Composes fun m _ m' => I m → I m' :=
    ⟨fun _ h => h, fun h h' => h' ∘ h, fun m _ => hfail m _⟩
  exact after_keeps_of hm fun o _ => o.build_relates hI h

/-- A history leaves the name and the stamp of a module alone. -/
theorem header_after (m : Module) (history : List Operation) :
    (m.after history).name = m.name ∧ (m.after history).stamp = m.stamp := by
  refine after_keeps (I := fun m' => m'.name = m.name ∧ m'.stamp = m.stamp) (fun _ _ h => h)
    (fun r => ?_) ⟨rfl, rfl⟩ history
  exact (r.build_relates tolerates_header).mono fun _ _ _ h h' =>
    ⟨h.1.trans h'.1, h.2.trans h'.2⟩

/-- A history leaves the options of a module alone. -/
theorem options_after (m : Module) (history : List Operation) :
    (m.after history).options = m.options := by
  refine after_keeps (I := fun m' => m'.options = m.options) (fun _ _ h => h) (fun r => ?_) rfl
    history
  exact (r.build_relates tolerates_options).mono fun _ _ _ h h' => h.trans h'

/-- A history leaves an earlier fault alone. -/
theorem fault_after {m : Module} {f : Fault} (hm : m.fault = some f)
    (history : List Operation) : (m.after history).fault = some f := by
  induction history generalizing m with
  | nil => exact hm
  | cons o rest ih =>
      have ho := o.build_relates tolerates_fault.toComposes
        (·.build_relates tolerates_fault)
      rw [after]
      split
      case h_1 hx => exact ih (by rw [ho.ok hx, hm, Option.some_or])
      case h_2 hx => exact ih (by rw [ho.error hx, hm, Option.some_or])

/-- **A module without a fault** is the product of registrations that have all succeeded. -/
theorem after_ok {m : Module} {history : List Operation}
    (h : (m.after history).fault = none) :
    Registration.runAll (registrations m.options.devices history) m
      = .ok () (m.after history) := by
  induction history generalizing m with
  | nil => rfl
  | cons o rest ih =>
      have hfault := o.build_relates tolerates_fault.toComposes
        (·.build_relates tolerates_fault)
      have hoptions := o.build_relates tolerates_options.toComposes
        (·.build_relates tolerates_options)
      cases hx : o.build m with
      | error e m₁ =>
          have hm : m.after (o :: rest) = m₁.after rest := by rw [after, hx]
          have h₁ : m₁.fault = some (m.fault.getD e) := by
            rw [hfault.error hx]
            cases m.fault <;> rfl
          rw [hm, fault_after h₁] at h
          cases h
      | ok u m₁ =>
          have hm : m.after (o :: rest) = m₁.after rest := by rw [after, hx]
          rw [hm] at h ⊢
          have hrest := ih h
          rw [hoptions.ok hx] at hrest
          rw [o.build_eq, deviceDefaults_bind_apply] at hx
          rw [registrations, List.flatMap_cons, Registration.runAll_append, bind_of_ok hx]
          exact hrest

/-- A new module is empty. -/
theorem eq_of_new? {options : Options} {present name : String} {m : Module}
    (h : Module.new? options present name = .ok m) :
    m = { name, options, stamp := options.header.resolve present, names := .empty,
          nets := [], parameters := [], declaredVariables := [], initialisation := [],
          prologue := [], body := [], epilogue := [], sequences := 0, markers := [],
          fault := none } := by
  unfold Module.new? at h
  cases hc : Name.check name with
  | error f => rw [hc] at h; cases h
  | ok u => rw [hc] at h; cases h; rfl

/-- After every history there is one assignment of an initial value for each variable. -/
theorem initialised_after {options : Options} {present name : String} {m : Module}
    (h : Module.new? options present name = .ok m) (history : List Operation) :
    (m.after history).Initialised := by
  refine after_keeps (fun _ _ h => h) (fun r => r.build_relates tolerates_initialised) ?_ history
  rw [eq_of_new? h]
  rfl

/-- Every history keeps the shared blocks in order. -/
theorem orderly_after {options : Options} {present name : String} {m : Module}
    (h : Module.new? options present name = .ok m) (history : List Operation) :
    Orderly (m.after history).prologue := by
  refine after_keeps (I := fun m => Orderly m.prologue) (fun _ _ h => h)
    (fun r => r.build_relates tolerates_orderly) ?_ history
  rw [eq_of_new? h]
  exact .nil

end Module

end Stimulus
