import Stimulus.Proofs.Contents
import Stimulus.Proofs.Run.Refinement
import Stimulus.Proofs.Run.Straight

/-!
# Clocks in a run

The level of a clock, its switch and the time of its timer are changed by three pieces of code that
are run in any order: switching on, switching off, and the block that belongs to the timer. What
they do depends on three bits, the **phase** of the clock: whether it is on, whether its pin is
high, and whether its timer is pending, which means that it has been set to a time ahead and has not
expired since.

The timer is also pending for a while after the clock has been switched off, and what it does then
is to change the level once more, be it high or low.

## Main definitions

* `Meaning.LawfulLevels`: what a disjunction and a toggle mean.
* `Clock.Act`, `Clock.Step`, `Clock.Course`: what is done with a clock, step after step.
* `Clock.Phase`, `Clock.Shows`: the phase of a clock.
* `Clock.rises`: how often the pin goes from low to high.

## Main results

* `Clock.Step.shows`, `Clock.exists_step`: every act is possible and changes the phase in its way.
* `Clock.rises_after_off`: how many pulses come after a clock has been switched off for good: one if
  this happens while the pin is low and the timer is pending, else none.
-/

namespace Stimulus

/-! ### Levels -/

/-- The value of a bool variable. -/
def Datum.level {R : Type} (b : Bool) : Datum R :=
  .integer (if b then 1 else 0)

/-- A lawful meaning has **lawful levels** if disjunctions and toggles have their usual meaning. -/
structure Meaning.LawfulLevels {R : Type} (M : Meaning R) : Prop extends M.Lawful where
  or : ∀ a b st, M.bool (.connect .or a b) st = (M.bool a st || M.bool b st)
  toggle : ∀ x n st, st x = .integer n →
    M.perform (.command (.toggle x)) st = some (st.set x (.integer (if n = 0 then 1 else 0)))

namespace Meaning

variable {R : Type} {M : Meaning R} {x : String} {b : Bool} {st : Store R}

/-- A bool variable is read back. -/
theorem Lawful.bool_level (hM : M.Lawful) (h : st x = .level b) : M.bool (.ident x) st = b := by
  rw [hM.bool_ident x _ st h]
  cases b <;> rfl

/-- A level that is toggled becomes the opposite one. -/
theorem LawfulLevels.toggle_level (hM : M.LawfulLevels) (h : st x = .level b) :
    M.perform (.command (.toggle x)) st = some (st.set x (.level !b)) := by
  rw [hM.toggle x _ st h]
  cases b <;> rfl

/-- The disjunctions of the plain meaning, read as usual. -/
def levelsBool : Expr .bool → Store Float → Bool
  | .connect .or a b, st => levelsBool a st || levelsBool b st
  | e, st => plainBool e st

/-- The plain meaning with disjunctions and toggles. -/
def levels : Meaning Float where
  real := plainReal
  integer := plainInteger
  bool := levelsBool
  fits := plain.fits
  perform
    | .command (.assign x ⟨.bool, e⟩), st =>
      some (st.set x (.integer (if levelsBool e st then 1 else 0)))
    | .command (.toggle x), st =>
      some (st.set x (.integer (if plainInteger (.ident x) st = 0 then 1 else 0)))
    | s, st => plain.perform s st

/-- The plain meaning with disjunctions and toggles has lawful levels. -/
theorem levels_lawful : levels.LawfulLevels where
  real_literal _ _ _ := rfl
  integer_literal _ _ := rfl
  bool_literal b st := by
    simp only [levels, levelsBool, plainBool]
  integer_ident := plain_lawful.integer_ident
  bool_ident x n st h := by
    simp [levels, levelsBool, plainBool, plainInteger, h]
  eq a b st := by
    simp only [levels, levelsBool, plainBool]
    exact decide_eq_decide.mpr Iff.rfl
  lt a b st := by
    simp only [levels, levelsBool, plainBool]
    exact decide_eq_decide.mpr Iff.rfl
  fits _ _ _ := rfl
  assign x v st := by
    obtain ⟨k, e⟩ := v
    cases k <;> rfl
  increment := plain_lawful.increment
  finish _ := rfl
  or a b st := by
    simp [levels, levelsBool]
  toggle x n st h := by
    simp [levels, plainInteger, h]

end Meaning

/-! ### The phase of a clock -/

namespace Clock

variable {R : Type}

/-- What is done with a clock. Anything else may be done in between. -/
inductive Act where
  | on (frequency : Expr .real)
  | off
  /-- The timer of the clock expires. -/
  | tick
  | other

/-- The store, and whether the timer of a clock is pending: it has been set to a time ahead and has
not expired since. -/
structure State (R : Type) where
  store : Store R
  pending : Bool

/-- The variables of a clock. -/
def names (c : Clock) : List String :=
  [c.driver.value.name, c.level.name, c.isOn.name, c.halfPeriod.name, c.time.name]

/-- The timer is set by the statements that are performed. -/
def sets (c : Clock) (done : List Statement) : Bool :=
  done.any fun s => s.target? == some c.time.name

/-- Something is done with a clock. Whatever is done elsewhere leaves its variables alone. A timer
that is set is pending if the time that it is set to lies **ahead**; if it does not, the timer waits
for nothing any more. -/
inductive Step (M : Meaning R) (ahead : Store R → Bool) (c : Clock) :
    State R → Act → State R → Prop
  | on {frequency : Expr .real} {st st' : Store R} {pending : Bool} {done : List Statement}
      (h : M.Runs [c.on frequency] st done st') :
      Step M ahead c ⟨st, pending⟩ (.on frequency)
        ⟨st', if c.sets done then ahead st' else pending⟩
  | off {st st' : Store R} {pending : Bool} {done : List Statement}
      (h : M.Runs [c.off] st done st') :
      Step M ahead c ⟨st, pending⟩ .off ⟨st', if c.sets done then ahead st' else pending⟩
  | tick {st st' : Store R} {pending : Bool} {done : List Statement}
      (h : M.Runs c.tick st done st') :
      Step M ahead c ⟨st, pending⟩ .tick ⟨st', c.sets done && ahead st'⟩
  | other {st st' : Store R} {pending : Bool} (h : ∀ x ∈ c.names, st' x = st x) :
      Step M ahead c ⟨st, pending⟩ .other ⟨st', pending⟩

/-- What is done with a clock from a state on, and the states that come of it. -/
def Course (M : Meaning R) (ahead : Store R → Bool) (c : Clock) :
    State R → List (Act × State R) → Prop
  | _, [] => True
  | s, (a, s') :: rest => c.Step M ahead s a s' ∧ c.Course M ahead s' rest

/-- The phase of a clock. -/
structure Phase where
  on : Bool
  high : Bool
  pending : Bool

/-- How an act changes the phase, if a time that the timer is set to lies ahead, and if it does
not. -/
def Phase.next (p : Phase) (ahead : Bool) : Act → Phase
  | .on _ => ⟨true, p.high, ahead⟩
  | .off => ⟨false, p.high, p.pending⟩
  | .tick => ⟨p.on, !p.high, (p.on || !p.high) && ahead⟩
  | .other => p

/-- A state **shows** a phase. The level is kept in two variables, one of which drives the pin. -/
structure Shows (c : Clock) (s : State R) (p : Phase) : Prop where
  isOn : s.store c.isOn.name = .level p.on
  level : s.store c.level.name = .level p.high
  value : s.store c.driver.value.name = .level p.high
  pending : s.pending = p.pending

/-! ### What acts do -/

/-- The store after a clock has been switched on. -/
def switchedOn (M : Meaning R) (c : Clock) (frequency : Expr .real) (st : Store R) : Store R :=
  let su := (st.set c.halfPeriod.name (M.value ⟨_, Expr.div (.real 0.5) frequency⟩ st)).set
    c.isOn.name (.level true)
  su.set c.time.name (M.value ⟨_, Expr.now.add (.real 1e-9)⟩ su)

/-- The store after the level of a clock in some phase has changed. -/
def changed (c : Clock) (p : Phase) (st : Store R) : Store R :=
  (st.set c.level.name (.level !p.high)).set c.driver.value.name (.level !p.high)

/-- The store after the timer of a clock in some phase has expired. -/
def ticked (M : Meaning R) (c : Clock) (p : Phase) (st : Store R) : Store R :=
  if p.on || !p.high then
    (c.changed p st).set c.time.name
      (M.value ⟨_, Expr.now.add c.halfPeriod.expr⟩ (c.changed p st))
  else c.changed p st

section Acts

variable {M : Meaning R} {ahead : Store R → Bool} {c : Clock} {frequency : Expr .real}
  {st st' : Store R} {done : List Statement} {p : Phase} {s s' : State R} {a : Act}

/-- What switching a clock on does: the last thing is that the timer is set. -/
theorem runs_on_iff (hM : M.Lawful) : M.Runs [c.on frequency] st done st' ↔
    done = [.command (c.halfPeriod.assign (Expr.div (.real 0.5) frequency)),
      .command (c.isOn.assign (.bool true)),
      .command (c.time.assign (Expr.now.add (.real 1e-9)))] ∧
    st' = c.switchedOn M frequency st := by
  have hlist : M.expand st (c.on frequency)
      = some [.command (c.halfPeriod.assign (Expr.div (.real 0.5) frequency)),
        .command (c.isOn.assign (.bool true)),
        .command (c.time.assign (Expr.now.add (.real 1e-9)))] := rfl
  rw [Meaning.runs_expand_iff hlist]
  simp only [List.append_nil, Variable.assign, hM.runs_assign_iff, Meaning.runs_nil_iff]
  have htrue (su : Store R) : M.value ⟨_, .bool true⟩ su = .level true := by
    rw [Meaning.value, hM.bool_literal]
    rfl
  simp only [htrue]
  constructor
  · rintro ⟨_, rfl, _, rfl, _, rfl, rfl, rfl⟩
    exact ⟨rfl, rfl⟩
  · rintro ⟨rfl, rfl⟩
    exact ⟨_, rfl, _, rfl, _, rfl, rfl, rfl⟩

/-- What switching a clock off does: the timer is left alone. -/
theorem runs_off_iff (hM : M.Lawful) : M.Runs [c.off] st done st' ↔
    done = [.command (c.isOn.assign (.bool false))] ∧
    st' = st.set c.isOn.name (.level false) := by
  have hfalse : M.value ⟨_, .bool false⟩ st = .level false := by
    rw [Meaning.value, hM.bool_literal]
    rfl
  rw [off, Variable.assign, hM.runs_assign_iff, hfalse]
  simp only [Meaning.runs_nil_iff]
  constructor
  · rintro ⟨_, rfl, rfl, rfl⟩
    exact ⟨rfl, rfl⟩
  · rintro ⟨rfl, rfl⟩
    exact ⟨_, rfl, rfl, rfl⟩

/-- What the timer of a clock does: it changes the level, and it is set again if the clock is on
or the pin is high now. -/
theorem runs_tick_iff (hM : M.LawfulLevels) (hc : c.names.Nodup)
    (hon : st c.isOn.name = .level p.on) (hlevel : st c.level.name = .level p.high) :
    M.Runs c.tick st done st' ↔
      done = .command c.level.toggle :: .command (c.driver.write c.level.expr) ::
        (if p.on || !p.high then
          [.command (c.time.assign (Expr.now.add c.halfPeriod.expr))] else []) ∧
      st' = c.ticked M p st := by
  have hne : c.level.name ≠ c.driver.value.name ∧ c.isOn.name ≠ c.level.name ∧
      c.isOn.name ≠ c.driver.value.name := by
    simp only [names, List.nodup_cons, List.mem_cons, not_or] at hc
    exact ⟨fun h => hc.1.1 h.symm, fun h => hc.2.1.1 h.symm, fun h => hc.1.2.1 h.symm⟩
  have hwrite : M.value ⟨_, c.level.expr⟩ (st.set c.level.name (.level !p.high))
      = .level !p.high := by
    rw [Meaning.value, Variable.expr, hM.bool_level (st.set_self _ _)]
    rfl
  -- The condition is read after the level has changed.
  have hguard : M.bool (c.isOn.expr.or c.level.expr) (c.changed p st) = (p.on || !p.high) := by
    have hon' : c.changed p st c.isOn.name = .level p.on := by
      rw [changed, Store.set_of_ne _ _ hne.2.2, st.set_of_ne _ hne.2.1, hon]
    have hlevel' : c.changed p st c.level.name = .level !p.high := by
      rw [changed, Store.set_of_ne _ _ hne.1, st.set_self]
    exact (hM.or _ _ _).trans (congrArg₂ _ (hM.bool_level hon') (hM.bool_level hlevel'))
  have hreset (more : List Statement) : M.Runs [.branch (c.isOn.expr.or c.level.expr)
        [.command (c.time.assign (Expr.now.add c.halfPeriod.expr))] []] (c.changed p st) more st' ↔
      more = (if p.on || !p.high then
        [.command (c.time.assign (Expr.now.add c.halfPeriod.expr))] else []) ∧
      st' = c.ticked M p st := by
    rw [Meaning.runs_expand_iff rfl, hguard, ticked]
    cases p.on || !p.high with
    | false => exact Meaning.runs_nil_iff
    | true =>
        simp only [if_pos, List.append_nil, Variable.assign, hM.runs_assign_iff,
          Meaning.runs_nil_iff]
        constructor
        · rintro ⟨_, rfl, rfl, rfl⟩
          exact ⟨rfl, rfl⟩
        · rintro ⟨rfl, rfl⟩
          exact ⟨_, rfl, rfl, rfl⟩
  rw [tick]
  refine (Meaning.runs_perform_iff rfl (hM.toggle_level hlevel)).trans ?_
  simp only [DigitalOutput.write, Variable.assign, hM.runs_assign_iff, hwrite]
  constructor
  · rintro ⟨_, rfl, more, rfl, hmore⟩
    obtain ⟨rfl, rfl⟩ := (hreset more).mp hmore
    exact ⟨rfl, rfl⟩
  · rintro ⟨rfl, rfl⟩
    exact ⟨_, rfl, _, rfl, (hreset _).mpr ⟨rfl, rfl⟩⟩

/-- **Every act changes the phase in its way.** -/
theorem Step.shows (hM : M.LawfulLevels) (hc : c.names.Nodup) (h : c.Step M ahead s a s')
    (hs : c.Shows s p) : c.Shows s' (p.next (ahead s'.store) a) := by
  have hnames := hc
  simp only [names, List.nodup_cons, List.mem_cons, List.not_mem_nil, or_false, not_or,
    not_false_eq_true, List.nodup_nil, and_true] at hnames
  obtain ⟨⟨hvl, hvo, hvp, hvt⟩, ⟨hlo, hlp, hlt⟩, ⟨hop, hot⟩, -⟩ := hnames
  cases h with
  | @on frequency st st' pending done h =>
      obtain ⟨rfl, rfl⟩ := (runs_on_iff hM.toLawful).mp h
      have hkept {x : String} (hp : x ≠ c.halfPeriod.name) (ho : x ≠ c.isOn.name)
          (ht : x ≠ c.time.name) : c.switchedOn M frequency st x = st x := by
        rw [switchedOn, Store.set_of_ne _ _ ht, Store.set_of_ne _ _ ho, st.set_of_ne _ hp]
      refine ⟨?_, (hkept hlp hlo hlt).trans hs.level, (hkept hvp hvo hvt).trans hs.value, ?_⟩
      · exact (Store.set_of_ne _ _ hot).trans (Store.set_self _ _ _)
      · simp [sets, Phase.next, Statement.target?, Command.target?, Variable.assign]
  | @off st st' pending done h =>
      obtain ⟨rfl, rfl⟩ := (runs_off_iff hM.toLawful).mp h
      refine ⟨st.set_self _ _, (st.set_of_ne _ hlo).trans hs.level,
        (st.set_of_ne _ hvo).trans hs.value, ?_⟩
      simpa [sets, Phase.next, Statement.target?, Command.target?, Variable.assign,
        beq_eq_false_iff_ne.mpr hot] using hs.pending
  | @tick st st' pending done h =>
      obtain ⟨rfl, rfl⟩ := (runs_tick_iff hM hc hs.isOn hs.level).mp h
      have hticked {x : String} (hx : x ≠ c.time.name) :
          c.ticked M p st x = c.changed p st x := by
        rw [ticked]
        split
        · exact Store.set_of_ne _ _ hx
        · rfl
      have hon : c.changed p st c.isOn.name = st c.isOn.name := by
        rw [changed, Store.set_of_ne _ _ (Ne.symm hvo), st.set_of_ne _ (Ne.symm hlo)]
      have hlevel : c.changed p st c.level.name = .level !p.high := by
        rw [changed, Store.set_of_ne _ _ (Ne.symm hvl), st.set_self]
      refine ⟨(hticked hot).trans (hon.trans hs.isOn), (hticked hlt).trans hlevel,
        (hticked hvt).trans (Store.set_self _ _ _), ?_⟩
      dsimp only [sets, Phase.next]
      cases p.on || !p.high <;>
        simp [Statement.target?, Command.target?, Variable.assign, Variable.toggle,
          DigitalOutput.write, hvt]
  | @other st st' pending h =>
      have hkept {x : String} (hx : x ∈ c.names) : st' x = st x := h x hx
      refine ⟨?_, ?_, ?_, hs.pending⟩
      · exact (hkept (by simp [names])).trans hs.isOn
      · exact (hkept (by simp [names])).trans hs.level
      · exact (hkept (by simp [names])).trans hs.value

/-- **Every act is possible in every phase.** -/
theorem exists_step (ahead : Store R → Bool) (hM : M.LawfulLevels) (hc : c.names.Nodup)
    (hs : c.Shows s p) (a : Act) :
    ∃ s', c.Step M ahead s a s' ∧ c.Shows s' (p.next (ahead s'.store) a) := by
  have hstep : ∃ s', c.Step M ahead s a s' := by
    cases a with
    | on frequency => exact ⟨_, .on ((runs_on_iff hM.toLawful).mpr ⟨rfl, rfl⟩)⟩
    | off => exact ⟨_, .off ((runs_off_iff hM.toLawful).mpr ⟨rfl, rfl⟩)⟩
    | tick => exact ⟨_, .tick ((runs_tick_iff hM hc hs.isOn hs.level).mpr ⟨rfl, rfl⟩)⟩
    | other => exact ⟨_, .other fun _ _ => rfl⟩
  obtain ⟨s', hstep⟩ := hstep
  exact ⟨s', hstep, hstep.shows hM hc hs⟩

end Acts

/-! ### Courses -/

section Courses

variable {M : Meaning R} {ahead : Store R → Bool} {c : Clock} {p : Phase} {s : State R}
  {course : List (Act × State R)}

/-- The rest of a course is a course, from a state that shows some phase. -/
theorem Course.of_append (hM : M.LawfulLevels) (hc : c.names.Nodup)
    {before after : List (Act × State R)} (h : c.Course M ahead s (before ++ after))
    (hs : c.Shows s p) : ∃ s' p', c.Shows s' p' ∧ c.Course M ahead s' after := by
  induction before generalizing s p with
  | nil => exact ⟨s, p, hs, h⟩
  | cons e before ih => exact ih h.2 (h.1.shows hM hc hs)

/-- Whether an act is that the timer expires. -/
def Act.isTick : Act → Bool
  | .tick => true
  | _ => false

/-- Whether an act switches the clock on. -/
def Act.isOn : Act → Bool
  | .on _ => true
  | _ => false

/-- The timer expires only when it is pending. -/
def Timely : State R → List (Act × State R) → Prop
  | _, [] => True
  | s, (a, s') :: rest => (a.isTick = true → s.pending = true) ∧ Timely s' rest

/-- How often the pin goes from low to high. -/
def rises (M : Meaning R) (c : Clock) : State R → List (State R) → Nat
  | _, [] => 0
  | s, s' :: rest =>
    (!M.bool c.driver.value.expr s.store && M.bool c.driver.value.expr s'.store).toNat
      + rises M c s' rest

/-- The pulses of a clock that is off. -/
theorem rises_of_shows (hM : M.LawfulLevels) (hc : c.names.Nodup) (h : c.Course M ahead s course)
    (htimely : Timely s course) (hoff : ∀ e ∈ course, e.1.isOn = false) (hs : c.Shows s p)
    (hon : p.on = false) :
    c.rises M s (course.map (·.2))
      = (!p.high && p.pending && course.any (·.1.isTick)).toNat := by
  induction course generalizing s p with
  | nil => simp [rises]
  | cons e rest ih =>
      obtain ⟨a, s'⟩ := e
      obtain ⟨hstep, hrest⟩ := h
      rw [List.forall_mem_cons] at hoff
      have hs' := hstep.shows hM hc hs
      have ih := ih hrest htimely.2 hoff.2 hs'
      have hlevel : M.bool c.driver.value.expr s.store = p.high := hM.bool_level hs.value
      have hlevel' : M.bool c.driver.value.expr s'.store = (p.next (ahead s'.store) a).high :=
        hM.bool_level hs'.value
      rw [List.map_cons, rises, hlevel, hlevel', List.any_cons]
      cases a with
      | on frequency => cases hoff.1
      | off =>
          have hany (b : Bool) : (Act.isTick .off || b) = b := Bool.false_or b
          rw [ih rfl]
          simp [Phase.next, hany]
      | tick =>
          -- The timer was pending. After the level has changed, it is pending if the pin is high.
          have hpending : p.pending = true := hs.pending.symm.trans (htimely.1 rfl)
          rw [ih hon]
          cases hhigh : p.high <;> simp [Phase.next, Act.isTick, hon, hhigh, hpending]
      | other =>
          have hany (b : Bool) : (Act.isTick .other || b) = b := Bool.false_or b
          rw [ih hon]
          simp [Phase.next, hany]

end Courses

/-! ### Clocks in modules -/

/-- The variables of a clock are five different ones. -/
theorem nodup_names (pin domain : Net) : (ofNets pin domain).names.Nodup := by
  simp [names, ofNets, Net.owned]

/-- The state in which a simulation starts: the timer of a clock is set to a time that it does not
reach. -/
def start (M : Meaning R) (m : Module) (st : Store R) : State R :=
  ⟨M.initial m st, false⟩

section Modules

variable {options : Options} {present name : String} {m₀ : Module}

/-- At the start a clock is off and its pin is low. -/
theorem shows_start (h₀ : Module.new? options present name = .ok m₀) {history : List Operation}
    (hfault : (m₀.after history).fault = none) {pin domain : Net}
    (hclock : .clock pin domain ∈ history) {M : Meaning R} (hM : M.Lawful) (st : Store R) :
    (ofNets pin domain).Shows (start M (m₀.after history) st) ⟨false, false, false⟩ := by
  have hinitial {part : String}
      (hpart : .flag (pin.owned part) ∈ Clock.registrations options.devices pin domain) :
      M.initial (m₀.after history) st (pin.owned part) = .level false := by
    have hdeclared := Module.registrations_isIn h₀ hfault hclock hpart
    refine Meaning.initial_eq hM (Module.initialised_after h₀ history)
      (Module.wellNamed_after h₀ history).nodup_variables hdeclared (fun su => ?_) st
    rw [Meaning.value, hM.bool_literal]
    rfl
  refine ⟨hinitial ?_, hinitial ?_, hinitial ?_, rfl⟩ <;>
    simp [Clock.registrations, DigitalOutput.registrations]

/-- A history with a clock. -/
def bench : List Operation :=
  [.net "vdd" .input, .net "clk" .output, .clock (.scalar "clk") (.scalar "vdd")]

/-- A new module has no fault after a clock has been installed. -/
theorem fault_bench {m₀ : Module} (h₀ : Module.new? .standard "" "bench" = .ok m₀) :
    (m₀.after bench).fault = none := by
  rw [Module.eq_of_new? h₀, ← Option.isNone_iff_eq_none]
  decide +kernel

/-- **Pulses of a clock that has been switched off.** After a clock has been switched off and while
it is not switched on again, its pin goes from low to high at most once: exactly if it was low when
the clock was switched off, its timer was pending then, and the timer expires. -/
theorem rises_after_off (h₀ : Module.new? options present name = .ok m₀)
    {history : List Operation} (hfault : (m₀.after history).fault = none) {pin domain : Net}
    (hclock : .clock pin domain ∈ history) {M : Meaning R} (hM : M.LawfulLevels)
    {ahead : Store R → Bool} (st : Store R) {before after : List (Act × State R)} {s : State R}
    (hcourse : (ofNets pin domain).Course M ahead (start M (m₀.after history) st)
      (before ++ (.off, s) :: after))
    (htimely : Timely s after) (hoff : ∀ e ∈ after, e.1.isOn = false) :
    (ofNets pin domain).rises M s (after.map (·.2))
      = (!M.bool (ofNets pin domain).driver.value.expr s.store && s.pending
          && after.any (·.1.isTick)).toNat := by
  have hnames := nodup_names pin domain
  obtain ⟨s₁, p, hs₁, hstep, hafter⟩ :=
    hcourse.of_append hM hnames (shows_start h₀ hfault hclock hM.toLawful st)
  have hs := hstep.shows hM hnames hs₁
  have hvalue : M.bool (ofNets pin domain).driver.value.expr s.store
      = (p.next (ahead s.store) .off).high :=
    hM.bool_level hs.value
  rw [hvalue, hs.pending]
  exact rises_of_shows hM hnames hafter htimely hoff hs rfl

/-- A clock that is switched off while its pin is high: the pin goes low and stays there. -/
theorem rises_after_off_high :
    ∃ m₀, Module.new? .standard "" "bench" = .ok m₀ ∧
      let c := ofNets (.scalar "clk") (.scalar "vdd")
      ∀ st : Store Float, ∃ s₁ s₂ s₃ s₄,
        c.Course Meaning.levels (fun _ => true) (start Meaning.levels (m₀.after bench) st)
          [(.on (.real 1e6), s₁), (.tick, s₂), (.off, s₃), (.tick, s₄)] ∧
        Timely s₃ [(.tick, s₄)] ∧ c.rises Meaning.levels s₃ [s₄] = 0 := by
  obtain ⟨m₀, h₀⟩ : ∃ m₀, Module.new? .standard "" "bench" = .ok m₀ := ⟨_, rfl⟩
  have hclock : .clock (.scalar "clk") (.scalar "vdd") ∈ bench := by simp [bench]
  have hM := Meaning.levels_lawful
  have hc := nodup_names (.scalar "clk") (.scalar "vdd")
  refine ⟨m₀, h₀, fun st => ?_⟩
  have hs₀ := shows_start h₀ (fault_bench h₀) hclock hM.toLawful st
  obtain ⟨s₁, h₁, hs₁⟩ := exists_step (fun _ => true) hM hc hs₀ (.on (.real 1e6))
  obtain ⟨s₂, h₂, hs₂⟩ := exists_step (fun _ => true) hM hc hs₁ .tick
  obtain ⟨s₃, h₃, hs₃⟩ := exists_step (fun _ => true) hM hc hs₂ .off
  obtain ⟨s₄, h₄, -⟩ := exists_step (fun _ => true) hM hc hs₃ .tick
  have htimely : Timely s₃ [(.tick, s₄)] := ⟨fun _ => hs₃.pending, trivial⟩
  have hcourse : (ofNets (.scalar "clk") (.scalar "vdd")).Course Meaning.levels (fun _ => true)
      (start Meaning.levels (m₀.after bench) st)
      ([(.on (.real 1e6), s₁), (.tick, s₂)] ++ (.off, s₃) :: [(.tick, s₄)]) :=
    ⟨h₁, h₂, h₃, h₄, trivial⟩
  refine ⟨s₁, s₂, s₃, s₄, hcourse, htimely, ?_⟩
  have hrises := rises_after_off h₀ (fault_bench h₀) hclock hM st hcourse htimely
    (by simp [Act.isOn])
  have hhigh : Meaning.levels.bool (ofNets (.scalar "clk") (.scalar "vdd")).driver.value.expr
      s₃.store = true := hM.bool_level hs₃.value
  rw [hhigh] at hrises
  exact hrises

/-- A clock that is switched off while its pin is low goes high once more: its timer was pending,
and it changes the level, whether the clock is on or not. -/
theorem pulse_after_off :
    ∃ m₀, Module.new? .standard "" "bench" = .ok m₀ ∧
      let c := ofNets (.scalar "clk") (.scalar "vdd")
      ∀ st : Store Float, ∃ s₁ s₂ s₃ s₄ s₅,
        c.Course Meaning.levels (fun _ => true) (start Meaning.levels (m₀.after bench) st)
          [(.on (.real 1e6), s₁), (.tick, s₂), (.tick, s₃), (.off, s₄), (.tick, s₅)] ∧
        Timely (start Meaning.levels (m₀.after bench) st)
          [(.on (.real 1e6), s₁), (.tick, s₂), (.tick, s₃), (.off, s₄), (.tick, s₅)] ∧
        Meaning.levels.bool c.driver.value.expr s₄.store = false ∧
        Meaning.levels.bool c.driver.value.expr s₅.store = true := by
  obtain ⟨m₀, h₀⟩ : ∃ m₀, Module.new? .standard "" "bench" = .ok m₀ := ⟨_, rfl⟩
  have hclock : .clock (.scalar "clk") (.scalar "vdd") ∈ bench := by simp [bench]
  have hM := Meaning.levels_lawful
  have hc := nodup_names (.scalar "clk") (.scalar "vdd")
  refine ⟨m₀, h₀, fun st => ?_⟩
  have hs₀ := shows_start h₀ (fault_bench h₀) hclock hM.toLawful st
  obtain ⟨s₁, h₁, hs₁⟩ := exists_step (fun _ => true) hM hc hs₀ (.on (.real 1e6))
  obtain ⟨s₂, h₂, hs₂⟩ := exists_step (fun _ => true) hM hc hs₁ .tick
  obtain ⟨s₃, h₃, hs₃⟩ := exists_step (fun _ => true) hM hc hs₂ .tick
  obtain ⟨s₄, h₄, hs₄⟩ := exists_step (fun _ => true) hM hc hs₃ .off
  obtain ⟨s₅, h₅, hs₅⟩ := exists_step (fun _ => true) hM hc hs₄ .tick
  refine ⟨s₁, s₂, s₃, s₄, s₅, ⟨h₁, h₂, h₃, h₄, h₅, trivial⟩, ?_, hM.bool_level hs₄.value,
    hM.bool_level hs₅.value⟩
  exact ⟨by simp [Act.isTick], fun _ => hs₁.pending, fun _ => hs₂.pending,
    by simp [Act.isTick], fun _ => hs₄.pending, trivial⟩

end Modules

end Clock

end Stimulus
