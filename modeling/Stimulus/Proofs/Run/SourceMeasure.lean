import Mathlib.Analysis.Complex.Trigonometric
import Stimulus.Proofs.Contents
import Stimulus.Proofs.Run.Analog
import Stimulus.Proofs.Run.Refinement
import Stimulus.Proofs.Run.Straight

/-!
# Source-measure units in a run

A source-measure unit is told what to force by assignments to variables that all its modes share.
What matters to the current that its regulator asks for are the two limits, and what matters to its
leak is the resistance: its **setting**. Every mode makes all three from one argument, its **size**:
the limit of a voltage, the current, or the resistance.

Whatever the arguments are, the limits that a mode sets lie on both sides of zero, and the
resistance is positive. This holds for each of the three variables on its own, so it holds even
where an argument is an expression that reads these variables, and so changes its value from one
assignment to the next. A setting like this is all that the regulator needs to stay within its
limits: the hyperbolic tangent runs from -1 to 1, and the regulator takes it linearly to the range
between the limits.

## Main definitions

* `SourceMeasure.Mode`: a mode with its arguments.
* `SourceMeasure.Setting`, `SourceMeasure.Shows`: the limits and the resistance of a unit.
* `SourceMeasure.Act`, `SourceMeasure.Step`, `SourceMeasure.Course`: what is done with a unit, step
  after step.

## Main results

* `SourceMeasure.Step.taken`: what a mode sets.
* `SourceMeasure.Setting.Sound.flow_mem`: a regulator with a sound setting stays within its limits.
* `SourceMeasure.stays_within`: so does the regulator of a module, in every course.
-/

namespace Stimulus

namespace SourceMeasure

open Build Grammar

/-! ### Units in modules -/

/-- The source-measure unit on a net. -/
def ofNet (pin : Net) : SourceMeasure :=
  ⟨pin, ⟨pin.owned "volt"⟩, ⟨pin.owned "maxCur"⟩, ⟨pin.owned "minCur"⟩, ⟨pin.owned "res"⟩,
    ⟨pin.owned "vDelay"⟩, ⟨pin.owned "iDelay"⟩, ⟨pin.owned "rDelay"⟩, ⟨pin.owned "riseFall"⟩⟩

/-- What is installed is the unit on the net. -/
theorem eq_ofNet {pin : Net} {m m' : Module} {s : SourceMeasure}
    (h : install pin m = .ok s m') : s = ofNet pin := by
  simp only [install, namedVariable_bind, contribute_bind, runAll_runAll] at h
  obtain ⟨_, _, -, h⟩ := bind_ok.mp h
  obtain ⟨_, _, -, h⟩ := bind_ok.mp h
  exact (pure_ok.mp h).1.symm

/-- The names of all variables of a unit. -/
def names (s : SourceMeasure) : List String :=
  [s.potential.name, s.upper.name, s.lower.name, s.resistance.name, s.potentialDelay.name,
    s.limitDelay.name, s.resistanceDelay.name, s.edge.name]

/-- The value of a variable, smoothed by the edges of the unit. -/
def smoothed (s : SourceMeasure) (v delay : Variable .real) : Expr .real :=
  .transition v.expr delay.expr s.edge.expr s.edge.expr

/-- What the regulator of a unit contributes. -/
def regulation (s : SourceMeasure) (gain : Float) : Expr .real :=
  regulator gain s.pin (s.smoothed s.potential s.potentialDelay)
    (s.smoothed s.upper s.limitDelay) (s.smoothed s.lower s.limitDelay)

/-- The resistance that leaks. -/
def leakage (s : SourceMeasure) : Expr .real :=
  s.smoothed s.resistance s.resistanceDelay

/-! ### Modes -/

/-- A mode with its arguments. -/
inductive Mode where
  | voltage (volts limit : Expr .real)
  | current (amps limit : Expr .real)
  | resistance (ohms : Expr .real)

namespace Mode

/-- The statement that switches to a mode. -/
def statement (s : SourceMeasure) : Mode → Statement
  | voltage volts limit => s.applyVoltage volts limit
  | current amps limit => s.applyCurrent amps limit
  | resistance ohms => s.applyResistance ohms

/-- The argument that the limits and the resistance are made from. -/
def size : Mode → Expr .real
  | voltage _ limit => limit
  | current amps _ => amps
  | resistance ohms => ohms

/-- The sizes that are allowed: a resistance has to be positive. -/
def Admits : Mode → ℝ → Prop
  | resistance _, x => 0 < x
  | _, _ => True

/-- The upper limit that belongs to a size. -/
noncomputable def upper : Mode → ℝ → ℝ
  | voltage _ _, x => |x|
  | current _ _, x => max x 0
  | resistance _, _ => 0

/-- The lower limit that belongs to a size. -/
noncomputable def lower : Mode → ℝ → ℝ
  | voltage _ _, x => -|x|
  | current _ _, x => min x 0
  | resistance _, _ => 0

/-- The resistance that belongs to a size. -/
noncomputable def ohms : Mode → ℝ → ℝ
  | resistance _, x => x
  | _, x => 1e4 / (|x| + 1e-9)

/-- What the resistance is divided by where a mode computes it. -/
def divisor : Mode → Option (Expr .real)
  | voltage _ limit => some (limit.absReal.add (.real 1e-9))
  | current amps _ => some (amps.absReal.add (.real 1e-9))
  | resistance _ => none

/-- The assignments of a mode. -/
def assignments (s : SourceMeasure) : Mode → List (Variable .real × Expr .real)
  | voltage volts limit =>
    [(s.potential, volts), (s.upper, limit.absReal), (s.lower, limit.absReal.negReal),
      (s.resistance, resistanceFor limit.absReal), (s.potentialDelay, .real 0.0),
      (s.limitDelay, later), (s.resistanceDelay, later)]
  | current amps limit =>
    [(s.potential, limit), (s.upper, half.mul (amps.add amps.absReal)),
      (s.lower, half.mul (amps.sub amps.absReal)), (s.resistance, resistanceFor amps.absReal),
      (s.potentialDelay, later), (s.limitDelay, .real 0.0), (s.resistanceDelay, .real 0.0)]
  | resistance ohms =>
    [(s.potential, .real 0.0), (s.upper, .real 0.0), (s.lower, .real 0.0), (s.resistance, ohms),
      (s.potentialDelay, later)]

/-- The variables that a mode assigns. -/
def targets (s : SourceMeasure) (m : Mode) : List String :=
  (m.assignments s).map (·.1.name)

/-- A mode is its assignments. -/
theorem statement_eq (s : SourceMeasure) (m : Mode) :
    m.statement s = .ofCommands ((m.assignments s).map fun a => a.1.assign a.2) := by
  cases m <;> rfl

/-- A mode assigns no variable twice. -/
theorem nodup_targets (pin : Net) (m : Mode) : (m.targets (ofNet pin)).Nodup := by
  cases m <;> simp [targets, assignments, ofNet, Net.owned]

/-- Upper limits are not negative. -/
theorem upper_nonneg (m : Mode) (x : ℝ) : 0 ≤ m.upper x := by
  cases m with
  | voltage _ _ => exact abs_nonneg x
  | current _ _ => exact le_max_right x 0
  | resistance _ => exact le_rfl

/-- Lower limits are not positive. -/
theorem lower_nonpos (m : Mode) (x : ℝ) : m.lower x ≤ 0 := by
  cases m with
  | voltage _ _ => exact neg_nonpos.mpr (abs_nonneg x)
  | current _ _ => exact min_le_right x 0
  | resistance _ => exact le_rfl

/-- Resistances are positive. -/
theorem ohms_pos {m : Mode} {x : ℝ} (h : m.Admits x) : 0 < m.ohms x := by
  have hquotient : (0 : ℝ) < 1e4 / (|x| + 1e-9) := by positivity
  cases m with
  | voltage _ _ => exact hquotient
  | current _ _ => exact hquotient
  | resistance _ => exact h

/-! ### What modes assign -/

section Assigned

variable {S : Simulator} {st : Store ℝ} {e : Expr .real} {x : ℝ}

/-- The literal zero. -/
theorem yields_zero : (Expr.real 0.0).Yields S st 0 :=
  .real ⟨0, 0⟩ (by decide +kernel) (by norm_num)

/-- One half. -/
theorem yields_half : half.Yields S st 0.5 :=
  .real ⟨5000000, -1⟩ (by decide +kernel) (by norm_num)

/-- A divisor is a little more than an absolute value. -/
theorem yields_divisor (h : e.Yields S st x) :
    (e.absReal.add (.real 1e-9)).Yields S st (|x| + 1e-9) :=
  h.abs.add (.real ⟨1000000, -9⟩ (by decide +kernel) (by norm_num))

/-- The resistance for a size. -/
theorem yields_resistanceFor (h : e.Yields S st x) :
    (resistanceFor e.absReal).Yields S st (1e4 / (|x| + 1e-9)) :=
  have hdividend : (Expr.real 1e4).Yields S st 1e4 :=
    .real ⟨1000000, 4⟩ (by decide +kernel) (by norm_num)
  .div hdividend.hasValue_real (yields_divisor h)

/-- The upper limit of a current, as it is computed. -/
theorem half_add_abs (x : ℝ) : 0.5 * (x + |x|) = max x 0 := by
  rcases le_total 0 x with h | h
  · rw [abs_of_nonneg h, max_eq_left h]
    ring
  · rw [abs_of_nonpos h, max_eq_right h]
    ring

/-- The lower limit of a current, as it is computed. -/
theorem half_sub_abs (x : ℝ) : 0.5 * (x - |x|) = min x 0 := by
  rcases le_total 0 x with h | h
  · rw [abs_of_nonneg h, min_eq_right h]
    ring
  · rw [abs_of_nonpos h, min_eq_left h]
    ring

end Assigned

/-- A mode **assigns** a function of its size to a variable. -/
def Assigns (s : SourceMeasure) (m : Mode) (v : Variable .real) (f : ℝ → ℝ) : Prop :=
  ∃ e, (v, e) ∈ m.assignments s ∧
    ∀ {S : Simulator} {st : Store ℝ} {x : ℝ}, m.size.Yields S st x → e.Yields S st (f x)

/-- What a mode assigns to the upper limit. -/
theorem assigns_upper (s : SourceMeasure) (m : Mode) : m.Assigns s s.upper m.upper := by
  cases m with
  | voltage volts limit => exact ⟨limit.absReal, by simp [assignments], fun h => h.abs⟩
  | current amps limit =>
      refine ⟨half.mul (amps.add amps.absReal), by simp [assignments], fun {S st x} h => ?_⟩
      rw [upper, ← half_add_abs]
      exact yields_half.mul (h.add h.abs)
  | resistance ohms => exact ⟨.real 0.0, by simp [assignments], fun _ => yields_zero⟩

/-- What a mode assigns to the lower limit. -/
theorem assigns_lower (s : SourceMeasure) (m : Mode) : m.Assigns s s.lower m.lower := by
  cases m with
  | voltage volts limit =>
      exact ⟨limit.absReal.negReal, by simp [assignments], fun h => h.abs.neg⟩
  | current amps limit =>
      refine ⟨half.mul (amps.sub amps.absReal), by simp [assignments], fun {S st x} h => ?_⟩
      rw [lower, ← half_sub_abs]
      exact yields_half.mul (h.sub h.abs)
  | resistance ohms => exact ⟨.real 0.0, by simp [assignments], fun _ => yields_zero⟩

/-- What a mode assigns to the resistance. -/
theorem assigns_resistance (s : SourceMeasure) (m : Mode) :
    m.Assigns s s.resistance m.ohms := by
  cases m with
  | voltage volts limit =>
      exact ⟨resistanceFor limit.absReal, by simp [assignments], yields_resistanceFor⟩
  | current amps limit =>
      exact ⟨resistanceFor amps.absReal, by simp [assignments], yields_resistanceFor⟩
  | resistance ohms => exact ⟨ohms, by simp [assignments], id⟩

end Mode

/-! ### Settings -/

/-- The limits and the resistance of a unit. -/
structure Setting where
  upper : ℝ
  lower : ℝ
  resistance : ℝ

namespace Setting

/-- A setting is **sound** if the limits lie on both sides of zero and the resistance is
positive. -/
structure Sound (p : Setting) : Prop where
  lower_nonpos : p.lower ≤ 0
  upper_nonneg : 0 ≤ p.upper
  resistance_pos : 0 < p.resistance

/-- The current that a regulator asks for, given how hard it pulls: from -1 to 1. -/
noncomputable def flow (p : Setting) (pull : ℝ) : ℝ :=
  pull * 0.5 * (p.upper - p.lower) + 0.5 * (p.upper + p.lower)

/-- **A regulator stays within its limits.** -/
theorem Sound.flow_mem {p : Setting} (h : p.Sound) {pull : ℝ} (hpull : |pull| ≤ 1) :
    p.lower ≤ p.flow pull ∧ p.flow pull ≤ p.upper := by
  obtain ⟨hleast, hmost⟩ := abs_le.mp hpull
  have hwidth : 0 ≤ p.upper - p.lower := sub_nonneg.mpr (h.lower_nonpos.trans h.upper_nonneg)
  -- The pull divides the range between the limits.
  have habove : p.flow pull - p.lower = (1 + pull) / 2 * (p.upper - p.lower) := by
    rw [flow]
    ring
  have hbelow : p.upper - p.flow pull = (1 - pull) / 2 * (p.upper - p.lower) := by
    rw [flow]
    ring
  constructor
  · refine sub_nonneg.mp ?_
    rw [habove]
    exact mul_nonneg (by linarith) hwidth
  · refine sub_nonneg.mp ?_
    rw [hbelow]
    exact mul_nonneg (by linarith) hwidth

end Setting

/-- A store **shows** a setting. -/
structure Shows (s : SourceMeasure) (st : Store ℝ) (p : Setting) : Prop where
  upper : st s.upper.name = .real p.upper
  lower : st s.lower.name = .real p.lower
  resistance : st s.resistance.name = .real p.resistance

/-! ### What is done with a unit -/

/-- What is done with a unit. Anything else may be done in between. -/
inductive Act where
  | mode (m : Mode)
  | other

/-- The size of a mode comes to something that is allowed, whatever the mode has assigned. -/
def Mode.Ready (S : Simulator) (s : SourceMeasure) (st : Store ℝ) (m : Mode) : Prop :=
  ∀ su, Store.AgreeOff (m.targets s) su st → ∃ x, m.size.Yields S su x ∧ m.Admits x

/-- The size of a mode comes to `x` at some time while the mode assigns. -/
def Mode.Takes (S : Simulator) (s : SourceMeasure) (st : Store ℝ) (m : Mode) (x : ℝ) : Prop :=
  m.Admits x ∧ ∃ su, Store.AgreeOff (m.targets s) su st ∧ m.size.Yields S su x

/-- Something is done with a unit. Whatever is done elsewhere leaves its setting alone. -/
inductive Step (S : Simulator) (M : Meaning ℝ) (s : SourceMeasure) :
    Store ℝ → Act → Store ℝ → Prop
  | mode {m : Mode} {st st' : Store ℝ} {done : List Statement} (hready : m.Ready S s st)
      (h : M.Runs [m.statement s] st done st') : Step S M s st (.mode m) st'
  | other {st st' : Store ℝ}
      (h : ∀ v ∈ [s.upper, s.lower, s.resistance], st' v.name = st v.name) :
      Step S M s st .other st'

/-- What is done with a unit from a store on, and the stores that come of it. -/
def Course (S : Simulator) (M : Meaning ℝ) (s : SourceMeasure) :
    Store ℝ → List (Act × Store ℝ) → Prop
  | _, [] => True
  | st, (a, st') :: rest => s.Step S M st a st' ∧ s.Course S M st' rest

section Acts

variable {S : Simulator} {M : Meaning ℝ} {s : SourceMeasure} {st st' : Store ℝ} {m : Mode}
  {a : Act} {p : Setting}

/-- A variable holds what a mode has assigned to it. -/
theorem Mode.Assigns.taken (hM : M.Exact S) (hs : (m.targets s).Nodup) (hready : m.Ready S s st)
    {v : Variable .real} {f : ℝ → ℝ} (h : m.Assigns s v f) :
    ∃ x, m.Takes S s st x ∧ M.assigned (m.assignments s) st v.name = .real (f x) := by
  obtain ⟨e, he, hyields⟩ := h
  obtain ⟨su, hagree, hvalue⟩ := Meaning.exists_assigned hs he
  obtain ⟨x, hx, hadmits⟩ := hready su hagree
  exact ⟨x, ⟨hadmits, su, hagree, hx⟩, by rw [hvalue, hM.reads (hyields hx)]⟩

/-- **What a mode sets** belongs to sizes that its argument takes. -/
theorem Step.taken (hM : M.Exact S) (hs : (m.targets s).Nodup) (h : s.Step S M st (.mode m) st') :
    ∃ x y z, m.Takes S s st x ∧ m.Takes S s st y ∧ m.Takes S s st z ∧
      s.Shows st' ⟨m.upper x, m.lower y, m.ohms z⟩ := by
  cases h with
  | mode hready h =>
      rw [m.statement_eq] at h
      obtain ⟨-, rfl⟩ := (hM.runs_assignments_iff _).mp h
      obtain ⟨x, hx, hupper⟩ := (m.assigns_upper s).taken hM hs hready
      obtain ⟨y, hy, hlower⟩ := (m.assigns_lower s).taken hM hs hready
      obtain ⟨z, hz, hresistance⟩ := (m.assigns_resistance s).taken hM hs hready
      exact ⟨x, y, z, hx, hy, hz, hupper, hlower, hresistance⟩

/-- What a mode sets belongs to its size, if this comes to the same whatever the mode has
assigned. -/
theorem Step.settled (hM : M.Exact S) (hs : (m.targets s).Nodup)
    (h : s.Step S M st (.mode m) st') {x : ℝ}
    (hx : ∀ su, Store.AgreeOff (m.targets s) su st → m.size.Yields S su x) :
    s.Shows st' ⟨m.upper x, m.lower x, m.ohms x⟩ := by
  have htakes {y : ℝ} : m.Takes S s st y → y = x := fun ⟨_, su, hagree, hy⟩ =>
    hy.unique (hx su hagree)
  obtain ⟨x', y, z, hx', hy, hz, hshows⟩ := h.taken hM hs
  rwa [htakes hx', htakes hy, htakes hz] at hshows

/-- **Every act leaves a sound setting behind.** -/
theorem Step.sound (hM : M.Exact S) (hs : ∀ m : Mode, (m.targets s).Nodup)
    (h : s.Step S M st a st') (hp : s.Shows st p) (hsound : p.Sound) :
    ∃ p', s.Shows st' p' ∧ p'.Sound := by
  cases a with
  | mode m =>
      obtain ⟨x, y, z, -, -, hz, hshows⟩ := h.taken hM (hs m)
      exact ⟨_, hshows, m.lower_nonpos y, m.upper_nonneg x, m.ohms_pos hz.1⟩
  | other =>
      obtain ⟨⟩ | h := h
      simp only [List.forall_mem_cons] at h
      exact ⟨p, ⟨h.1.trans hp.upper, h.2.1.trans hp.lower, h.2.2.1.trans hp.resistance⟩, hsound⟩

/-- Every mode can be switched to when its argument has a value. -/
theorem Mode.Ready.exists_step (hM : M.Exact S) (h : m.Ready S s st) :
    ∃ st', s.Step S M st (.mode m) st' :=
  ⟨_, .mode h (by rw [m.statement_eq]; exact (hM.runs_assignments_iff _).mpr ⟨rfl, rfl⟩)⟩

/-- Nothing is divided by zero. -/
theorem Mode.Ready.divisor_pos (h : m.Ready S s st) {e : Expr .real} (he : e ∈ m.divisor)
    {su : Store ℝ} (hagree : Store.AgreeOff (m.targets s) su st) :
    (s.resistance, Expr.div (.real 1e4) e) ∈ m.assignments s ∧ ∃ y, e.Yields S su y ∧ 0 < y := by
  obtain ⟨x, hx, -⟩ := h su hagree
  have hpos : 0 < |x| + 1e-9 := by positivity
  cases m with
  | voltage volts limit =>
      cases he
      exact ⟨by simp [Mode.assignments, resistanceFor], _, Mode.yields_divisor hx, hpos⟩
  | current amps limit =>
      cases he
      exact ⟨by simp [Mode.assignments, resistanceFor], _, Mode.yields_divisor hx, hpos⟩
  | resistance ohms => cases he

/-- All stores of a course that starts with a sound setting show a sound setting. -/
theorem Course.sound (hM : M.Exact S) (hs : ∀ m : Mode, (m.targets s).Nodup)
    {course : List (Act × Store ℝ)} (h : s.Course S M st course) (hp : s.Shows st p)
    (hsound : p.Sound) : ∀ su ∈ st :: course.map (·.2), ∃ p', s.Shows su p' ∧ p'.Sound := by
  induction course generalizing st p with
  | nil =>
      intro su hsu
      obtain rfl := List.mem_singleton.mp hsu
      exact ⟨p, hp, hsound⟩
  | cons step rest ih =>
      intro su hsu
      rcases List.mem_cons.mp hsu with rfl | hsu
      · exact ⟨p, hp, hsound⟩
      · obtain ⟨p', hp', hsound'⟩ := h.1.sound hM hs hp hsound
        exact ih h.2 hp' hsound' su hsu

end Acts

/-! ### What the contributions come to -/

section Contributions

variable {S : Simulator} {s : SourceMeasure} {st : Store ℝ} {p : Setting}

/-- The names of a unit are names of variables. -/
def Legible (s : SourceMeasure) : Prop :=
  ∀ x ∈ s.names, Name.check x = .ok () ∧ x ≠ "inf"

/-- A variable comes to something. -/
theorem Legible.exists_yields (hs : s.Legible) {v : Variable .real} (hv : v.name ∈ s.names) :
    ∃ r, v.expr.Yields S st r :=
  ⟨_, _, .ident (hs _ hv).1, rfl⟩

/-- A variable that holds a real comes to it. -/
theorem Legible.yields (hs : s.Legible) {v : Variable .real} (hv : v.name ∈ s.names) {x : ℝ}
    (hx : st v.name = .real x) : v.expr.Yields S st x :=
  .ident (hs _ hv).1 (hs _ hv).2 (congrArg Datum.toReal hx)

/-- A smoothed variable comes to its value. -/
theorem Legible.smoothed (hs : s.Legible) {v delay : Variable .real} {x : ℝ}
    (hdelay : delay.name ∈ s.names) (hv : v.expr.Yields S st x) :
    (s.smoothed v delay).Yields S st x := by
  obtain ⟨d, hd⟩ := hs.exists_yields hdelay
  obtain ⟨r, hr⟩ : ∃ r, s.edge.expr.Yields S st r := hs.exists_yields (by simp [names])
  exact hv.transition hd hr hr

/-- What the regulator comes to, by how hard it pulls. -/
theorem Shows.regulation (hp : s.Shows st p) (hs : s.Legible)
    (hpin : Name.check s.pin.given = .ok ()) (gain : Float) :
    ∃ x, (s.regulation gain).Yields S st (p.flow (S.function st "tanh" [x])) := by
  have hlimit : s.limitDelay.name ∈ s.names := by simp [names]
  have hupper : (s.smoothed s.upper s.limitDelay).Yields S st p.upper :=
    hs.smoothed hlimit (hs.yields (by simp [names]) hp.upper)
  have hlower : (s.smoothed s.lower s.limitDelay).Yields S st p.lower :=
    hs.smoothed hlimit (hs.yields (by simp [names]) hp.lower)
  -- The wanted potential may be any number.
  obtain ⟨v, hv⟩ : ∃ v, s.potential.expr.Yields S st v := hs.exists_yields (by simp [names])
  have hwanted : (s.smoothed s.potential s.potentialDelay).Yields S st v :=
    hs.smoothed (by simp [names]) hv
  have hgain : (Expr.real gain).Yields S st _ := ⟨_, .real gain, rfl⟩
  have hpull := (hgain.mul (Expr.Yields.sub ⟨_, .potential hpin, rfl⟩ hwanted)).call .tanh
  exact ⟨_, ((hpull.mul Mode.yields_half).mul (hupper.sub hlower)).add
    (Mode.yields_half.mul (hupper.add hlower))⟩

/-- What the leak divides by. -/
theorem Shows.leakage (hp : s.Shows st p) (hs : s.Legible) :
    s.leakage.Yields S st p.resistance :=
  hs.smoothed (by simp [names]) (hs.yields (by simp [names]) hp.resistance)

end Contributions

/-! ### Units in modules -/

section Modules

variable {options : Options} {present name : String} {m₀ : Module} {history : List Operation}
  {pin : Net}

/-- A module declares the variables of its units. -/
theorem quantity_declared (h₀ : Module.new? options present name = .ok m₀)
    (hfault : (m₀.after history).fault = none) (hunit : .sourceMeasure pin ∈ history)
    {x : String} {initial : Float}
    (hx : .quantity x initial ∈ registrations options.devices pin) :
    ⟨x, ⟨_, .real initial⟩⟩ ∈ (m₀.after history).declaredVariables :=
  Module.registrations_isIn h₀ hfault hunit hx

/-- All variables of a unit are registered. -/
theorem names_registered (d : DeviceDefaults) (pin : Net) :
    ∀ x ∈ (ofNet pin).names, ∃ initial, .quantity x initial ∈ registrations d pin := by
  simp only [names, ofNet, List.forall_mem_cons]
  refine ⟨⟨0.0, ?_⟩, ⟨0.0, ?_⟩, ⟨0.0, ?_⟩, ⟨1e9, ?_⟩, ⟨0.0, ?_⟩, ⟨0.0, ?_⟩, ⟨0.0, ?_⟩,
    ⟨d.riseTime, ?_⟩, List.forall_mem_nil _⟩ <;> simp [registrations]

/-- The names of a unit in a module are names of variables. -/
theorem legible_ofNet (h₀ : Module.new? options present name = .ok m₀)
    (hfault : (m₀.after history).fault = none) (hunit : .sourceMeasure pin ∈ history) :
    (ofNet pin).Legible := by
  intro x hx
  obtain ⟨initial, hregistered⟩ := names_registered options.devices pin x hx
  have hdeclared := quantity_declared h₀ hfault hunit hregistered
  have hnamed := Module.wellNamed_after h₀ history
  refine ⟨hnamed.accepted _ (hnamed.perm.mem_iff.mp ?_), ?_⟩
  · exact List.mem_append_right _ (List.mem_map_of_mem hdeclared)
  · have hdollar : ∀ y ∈ (ofNet pin).names, '$' ∈ y.toList := by
      simp [names, ofNet, Net.owned]
    rintro rfl
    exact absurd (hdollar _ hx) (by decide)

/-- At the start the limits of a unit are zero, and its resistance is high. -/
theorem shows_start (h₀ : Module.new? options present name = .ok m₀)
    (hfault : (m₀.after history).fault = none) (hunit : .sourceMeasure pin ∈ history)
    {S : Simulator} {M : Meaning ℝ} (hM : M.Exact S) (st : Store ℝ) :
    (ofNet pin).Shows (M.initial (m₀.after history) st) ⟨0, 0, 1e9⟩ := by
  have hinitial {part : String} {initial : Float} {r : ℝ}
      (hpart : .quantity (pin.owned part) initial ∈ registrations options.devices pin)
      (hr : ∀ su, (Expr.real initial).Yields S su r) :
      M.initial (m₀.after history) st (pin.owned part) = .real r :=
    Meaning.initial_eq hM.toLawful (Module.initialised_after h₀ history)
      (Module.wellNamed_after h₀ history).nodup_variables
      (quantity_declared h₀ hfault hunit hpart)
      (fun su => congrArg Datum.real (hM.reads (hr su))) st
  have hlarge (su : Store ℝ) : (Expr.real 1e9).Yields S su 1e9 :=
    .real ⟨1000000, 9⟩ (by decide +kernel) (by norm_num)
  exact ⟨hinitial (by simp [registrations]) fun _ => Mode.yields_zero,
    hinitial (by simp [registrations]) fun _ => Mode.yields_zero,
    hinitial (by simp [registrations]) hlarge⟩

/-- **The regulator of a unit stays within its limits.** All handles of the unit on a net are the
same, and its regulator and its leak stand in the epilogue. In exact arithmetic, from the start on,
whatever is done with the unit, in any order: the limits lie on both sides of zero, what the leak
divides by is positive, and the regulator comes to something between the limits, however hard it
pulls.

Nothing keeps a mode from being switched to if its argument has a value, and there is no division by
zero on the way. If the argument has one value, whatever the mode has assigned, then the limits and
the resistance afterwards are those that belong to it. -/
theorem stays_within (h₀ : Module.new? options present name = .ok m₀)
    (hfault : (m₀.after history).fault = none) (hunit : .sourceMeasure pin ∈ history)
    (hpin : Name.check pin.given = .ok ()) :
    let m := m₀.after history
    let s := ofNet pin
    let regulation := s.regulation options.devices.smuGain
    (∀ (unit : SourceMeasure) (m₁ m₂ : Module), install pin m₁ = .ok unit m₂ → unit = s) ∧
    .command ((Branch.flow pin).contribute regulation) ∈ m.epilogue ∧
    .command ((Branch.flow pin).contribute (pin.potential.div s.leakage)) ∈ m.epilogue ∧
    ∀ (S : Simulator) (M : Meaning ℝ), M.Exact S →
      (∀ (st : Store ℝ) (course : List (Act × Store ℝ)), s.Course S M (M.initial m st) course →
        ∀ su ∈ M.initial m st :: course.map (·.2), ∃ p, s.Shows su p ∧
          p.lower ≤ 0 ∧ 0 ≤ p.upper ∧ s.leakage.Yields S su p.resistance ∧ 0 < p.resistance ∧
          ((∀ x, |S.function su "tanh" [x]| ≤ 1) →
            ∃ y, regulation.Yields S su y ∧ p.lower ≤ y ∧ y ≤ p.upper)) ∧
      ∀ (st : Store ℝ) (mode : Mode), mode.Ready S s st →
        (∃ st', s.Step S M st (.mode mode) st') ∧
        (∀ e ∈ mode.divisor, ∀ su, Store.AgreeOff (mode.targets s) su st →
          (s.resistance, Expr.div (.real 1e4) e) ∈ mode.assignments s ∧
            ∃ y, e.Yields S su y ∧ 0 < y) ∧
        ∀ x, (∀ su, Store.AgreeOff (mode.targets s) su st → mode.size.Yields S su x) →
          ∀ st', s.Step S M st (.mode mode) st' →
            s.Shows st' ⟨mode.upper x, mode.lower x, mode.ohms x⟩ := by
  intro m s regulation
  have hregulation : .command ((Branch.flow pin).contribute regulation) ∈ m.epilogue :=
    Module.registrations_isIn h₀ hfault hunit (r := .epilogue _)
      (by simp [Operation.registrations, registrations, Registration.contribution, regulation,
        SourceMeasure.regulation, smoothed, s, ofNet, Variable.expr])
  have hleak : .command ((Branch.flow pin).contribute (pin.potential.div s.leakage)) ∈ m.epilogue :=
    Module.registrations_isIn h₀ hfault hunit (r := .epilogue _)
      (by simp [Operation.registrations, registrations, Registration.contribution, leakage,
        smoothed, s, ofNet, Variable.expr])
  have hlegible : s.Legible := legible_ofNet h₀ hfault hunit
  have hnodup : ∀ mode : Mode, (mode.targets s).Nodup := Mode.nodup_targets pin
  refine ⟨fun unit m₁ m₂ => eq_ofNet, hregulation, hleak, fun S M hM =>
    ⟨fun st course hcourse su hsu => ?_, fun st mode hready => ⟨hready.exists_step hM,
      fun e he su => hready.divisor_pos he,
      fun x hx st' hstep => hstep.settled hM (hnodup mode) hx⟩⟩⟩
  have hstart : (⟨0, 0, 1e9⟩ : Setting).Sound := ⟨le_rfl, le_rfl, by norm_num⟩
  obtain ⟨p, hp, hsound⟩ :=
    hcourse.sound hM hnodup (shows_start h₀ hfault hunit hM st) hstart su hsu
  refine ⟨p, hp, hsound.lower_nonpos, hsound.upper_nonneg, hp.leakage hlegible,
    hsound.resistance_pos, fun htanh => ?_⟩
  obtain ⟨x, hx⟩ := hp.regulation (S := S) hlegible hpin options.devices.smuGain
  exact ⟨_, hx, hsound.flow_mem (htanh x)⟩

/-- A history with a source-measure unit. -/
def bench : List Operation :=
  [.net "s" .inout, .sourceMeasure (.scalar "s")]

/-- A simulator in which no net has a potential, no analysis runs, and the hyperbolic tangent is the
only function of reals. -/
noncomputable def quiet : Simulator where
  strengths := .standard
  infinity := 0
  probe _ _ _ := 0
  query _ _ := false
  function
    | _, "tanh", [x] => Real.tanh x
    | _, _, _ => 0

/-- A unit that forces a voltage, then a negative current, then a resistance. -/
theorem stays_within_bench :
    ∃ m₀, Module.new? .standard "" "bench" = .ok m₀ ∧
      let s := ofNet (.scalar "s")
      ∀ st : Store ℝ, ∃ st₁ st₂ st₃,
        s.Course quiet quiet.meaning (quiet.meaning.initial (m₀.after bench) st)
          [(.mode (.voltage (.real 1.2) (.real 1e-3)), st₁),
            (.mode (.current (Expr.real 2e-3).negReal (.real 3.3)), st₂),
            (.mode (.resistance (.real 1e3)), st₃)] ∧
        st₁ s.upper.name = .real 1e-3 ∧ st₁ s.lower.name = .real (-1e-3) ∧
        st₂ s.upper.name = .real 0 ∧ st₂ s.lower.name = .real (-2e-3) ∧
        st₃ s.resistance.name = .real 1e3 ∧
        ∀ su ∈ [st₁, st₂, st₃], ∃ p y, s.Shows su p ∧
          (s.regulation 50.0).Yields quiet su y ∧ p.lower ≤ y ∧ y ≤ p.upper := by
  obtain ⟨m₀, h₀⟩ : ∃ m₀, Module.new? .standard "" "bench" = .ok m₀ := ⟨_, rfl⟩
  have hfault : (m₀.after bench).fault = none := by
    rw [Module.eq_of_new? h₀, ← Option.isNone_iff_eq_none]
    decide +kernel
  have hunit : .sourceMeasure (.scalar "s") ∈ bench := by simp [bench]
  obtain ⟨-, -, -, hall⟩ := stays_within h₀ hfault hunit (by decide)
  obtain ⟨hcourse, hmodes⟩ := hall quiet quiet.meaning quiet.meaning_exact
  have hlimit (su : Store ℝ) : (Expr.real 1e-3).Yields quiet su 1e-3 :=
    .real ⟨1000000, -3⟩ (by decide +kernel) (by norm_num)
  have hamps (su : Store ℝ) : (Expr.real 2e-3).negReal.Yields quiet su (-2e-3) :=
    Expr.Yields.neg (.real ⟨2000000, -3⟩ (by decide +kernel) (by norm_num))
  have hohms (su : Store ℝ) : (Expr.real 1e3).Yields quiet su 1e3 :=
    .real ⟨1000000, 3⟩ (by decide +kernel) (by norm_num)
  refine ⟨m₀, h₀, fun st => ?_⟩
  obtain ⟨⟨st₁, h₁⟩, -, hset₁⟩ := hmodes (quiet.meaning.initial (m₀.after bench) st)
    (.voltage (.real 1.2) (.real 1e-3)) fun su _ => ⟨_, hlimit su, trivial⟩
  obtain ⟨⟨st₂, h₂⟩, -, hset₂⟩ := hmodes st₁ (.current (Expr.real 2e-3).negReal (.real 3.3))
    fun su _ => ⟨_, hamps su, trivial⟩
  obtain ⟨⟨st₃, h₃⟩, -, hset₃⟩ := hmodes st₂ (.resistance (.real 1e3))
    fun su _ => ⟨_, hohms su, show (0 : ℝ) < 1e3 by norm_num⟩
  have hshows₁ := hset₁ _ (fun su _ => hlimit su) st₁ h₁
  have hshows₂ := hset₂ _ (fun su _ => hamps su) st₂ h₂
  have hshows₃ := hset₃ _ (fun su _ => hohms su) st₃ h₃
  have hrun : (ofNet (.scalar "s")).Course quiet quiet.meaning
      (quiet.meaning.initial (m₀.after bench) st)
      [(.mode (.voltage (.real 1.2) (.real 1e-3)), st₁),
        (.mode (.current (Expr.real 2e-3).negReal (.real 3.3)), st₂),
        (.mode (.resistance (.real 1e3)), st₃)] := ⟨h₁, h₂, h₃, trivial⟩
  refine ⟨st₁, st₂, st₃, hrun, ?_, ?_, ?_, ?_, hshows₃.resistance, fun su hsu => ?_⟩
  · rw [hshows₁.upper, Mode.upper, abs_of_pos (by norm_num)]
  · rw [hshows₁.lower, Mode.lower, abs_of_pos (by norm_num)]
  · rw [hshows₂.upper, Mode.upper, max_eq_right (by norm_num)]
  · rw [hshows₂.lower, Mode.lower, min_eq_left (by norm_num)]
  · obtain ⟨p, hp, -, -, -, -, hregulator⟩ := hcourse st _ hrun su (List.mem_cons_of_mem _ hsu)
    obtain ⟨y, hy, hwithin⟩ := hregulator fun x => (Real.abs_tanh_lt_one x).le
    exact ⟨p, y, hp, hy, hwithin⟩

end Modules

end SourceMeasure

end Stimulus
