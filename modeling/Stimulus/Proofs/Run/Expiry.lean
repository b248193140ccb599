import Stimulus.Proofs.Run.Analog
import Stimulus.Proofs.Run.Clock

/-!
# Clocks do not stall

A clock that is on, or whose pin is high, has an expiry of its timer ahead of it, in exact
arithmetic: the timer has been set to a time that is not past, and that is at most half a period
away, or the nanosecond after which a clock starts. So a clock neither stalls nor stays high.

Two things are relied on. The frequencies with which clocks are switched on are positive: with a
negative one the timer is set to a time in the past, and the clock stalls while its pin is high. And
no time passes beyond a scheduled expiry before the timer has expired.

## Main definitions

* `Clock.Scheduled`: an expiry of the timer of a clock lies ahead.
* `Clock.Punctual`: a course with positive frequencies, in which no expiry is passed over.
* `Simulator.levels`: an exact meaning with lawful levels.

## Main results

* `Clock.Timed.step`: acts keep clocks timed, which is what carries the result through a course.
* `Clock.never_stalls`: while a clock is on or its pin is high, an expiry is scheduled.
* `Clock.stalls_with_negative_frequency`: a clock that is high for ever.
-/

namespace Stimulus

namespace Clock

/-! ### Times -/

section Times

variable (c : Clock)

/-- The present time. -/
def now (st : Store ℝ) : ℝ :=
  (st Environment.time.name).toReal

/-- The time that the timer of a clock is set to. -/
def due (st : Store ℝ) : ℝ :=
  (st c.time.name).toReal

/-- Half the period of a clock. -/
def half (st : Store ℝ) : ℝ :=
  (st c.halfPeriod.name).toReal

/-- Whether the time that the timer of a clock is set to lies ahead. -/
noncomputable def ahead (st : Store ℝ) : Bool :=
  decide (now st < c.due st)

/-- An expiry of the timer of a clock is **scheduled**: the timer is pending, and the time that it
is set to is not past and not far away. -/
structure Scheduled (s : State ℝ) : Prop where
  pending : s.pending = true
  not_past : now s.store ≤ c.due s.store
  near : c.due s.store ≤ now s.store + max 1e-9 (c.half s.store)

/-- What may be done with a clock: it is switched on with positive frequencies, and time goes on,
but not beyond a pending expiry. -/
def Admits (S : Simulator) (s : State ℝ) : Act → State ℝ → Prop
  | .on frequency, _ => ∃ x, frequency.Yields S s.store x ∧ 0 < x
  | .other, s' =>
    now s.store ≤ now s'.store ∧ (s.pending = true → now s'.store ≤ c.due s.store)
  | _, _ => True

/-- The variables of a clock are different, they can be read, and none of them is the time. -/
structure Readable : Prop where
  nodup : c.names.Nodup
  check : ∀ x ∈ c.names, Name.check x = .ok ()
  ne_inf : ∀ x ∈ c.names, x ≠ "inf"
  time : Environment.time.name ∉ c.names

/-- A clock in some phase is **timed**: its half period is positive, its timer is pending while it
is on or its pin is high, and a pending timer is scheduled. -/
structure Timed (s : State ℝ) (p : Phase) : Prop extends c.Shows s p where
  half_pos : 0 < c.half s.store
  sound : (p.on || p.high) = true → p.pending = true
  scheduled : p.pending = true → c.Scheduled s

end Times

/-- A course is **punctual** if nothing is done in it that may not be done. -/
def Punctual (S : Simulator) (c : Clock) : State ℝ → List (Act × State ℝ) → Prop
  | _, [] => True
  | s, (a, s') :: rest => c.Admits S s a s' ∧ c.Punctual S s' rest

/-! ### What acts do to the times -/

section Acts

variable {S : Simulator} {M : Meaning ℝ} {ahead : Store ℝ → Bool} {c : Clock}
  {frequency : Expr .real} {st st' : Store ℝ} {p : Phase} {s s' : State ℝ} {a : Act} {x : ℝ}

/-- **The stores that acts lead to.** -/
theorem Step.store_cases (hM : M.LawfulLevels) (hc : c.names.Nodup) (h : c.Step M ahead s a s')
    (hs : c.Shows s p) :
    (∃ frequency, a = .on frequency ∧ s'.store = c.switchedOn M frequency s.store) ∨
    (a = .off ∧ s'.store = s.store.set c.isOn.name (.level false)) ∨
    (a = .tick ∧ s'.store = c.ticked M p s.store) ∨
    (a = .other ∧ ∀ x ∈ c.names, s'.store x = s.store x) := by
  cases h with
  | on h => exact .inl ⟨_, rfl, ((runs_on_iff hM.toLawful).mp h).2⟩
  | off h => exact .inr (.inl ⟨rfl, ((runs_off_iff hM.toLawful).mp h).2⟩)
  | tick h =>
      exact .inr (.inr (.inl ⟨rfl, ((runs_tick_iff hM hc hs.isOn hs.level).mp h).2⟩))
  | other h => exact .inr (.inr (.inr ⟨rfl, h⟩))

/-- The present time stays what it is while the variables of a clock change. -/
theorem now_set (hc : c.Readable) {y : String} (hy : y ∈ c.names) (d : Datum ℝ) :
    now (st.set y d) = now st := by
  rw [now, st.set_of_ne d fun heq => hc.time (by rwa [heq]), now]

/-- Switching a clock on takes no time, sets half the period, and sets the timer to the next
nanosecond. -/
theorem switchedOn_times (hS : M.Exact S) (hc : c.Readable) (hx : frequency.Yields S st x) :
    let st' := c.switchedOn M frequency st
    now st' = now st ∧ c.half st' = 0.5 / x ∧ c.due st' = now st + 1e-9 := by
  have hnames := hc.nodup
  simp only [names, List.nodup_cons, List.mem_cons, List.not_mem_nil, or_false, not_or] at hnames
  obtain ⟨-, -, ⟨hop, -⟩, hpt, -⟩ := hnames
  have htwo : (Expr.real 0.5).Yields S st 0.5 :=
    .real ⟨5000000, -1⟩ (by decide +kernel) (by norm_num)
  have hhalf : M.value ⟨_, Expr.div (.real 0.5) frequency⟩ st = .real (0.5 / x) :=
    congrArg Datum.real (hS.reads (.div htwo.hasValue_real hx))
  have hnow (d e : Datum ℝ) : now ((st.set c.halfPeriod.name d).set c.isOn.name e) = now st := by
    rw [now_set hc (by simp [names]), now_set hc (by simp [names])]
  have hdue (su : Store ℝ) : M.value ⟨_, Expr.now.add (.real 1e-9)⟩ su = .real (now su + 1e-9) :=
    congrArg Datum.real
      (hS.reads (.add .now (.real ⟨1000000, -9⟩ (by decide +kernel) (by norm_num))))
  refine ⟨?_, ?_, ?_⟩
  · rw [switchedOn, now_set hc (by simp [names]), hnow]
  · rw [half, switchedOn, Store.set_of_ne _ _ hpt, Store.set_of_ne _ _ (Ne.symm hop),
      Store.set_self, hhalf]
    rfl
  · rw [due, switchedOn, Store.set_self, hdue, hnow]
    rfl

/-- Switching a clock off takes no time and leaves half the period and the timer alone. -/
theorem switchedOff_times (hc : c.Readable) (st : Store ℝ) (d : Datum ℝ) :
    let st' := st.set c.isOn.name d
    now st' = now st ∧ c.half st' = c.half st ∧ c.due st' = c.due st := by
  have hnames := hc.nodup
  simp only [names, List.nodup_cons, List.mem_cons, List.not_mem_nil, or_false, not_or] at hnames
  obtain ⟨-, -, ⟨hop, hot⟩, -⟩ := hnames
  refine ⟨now_set hc (by simp [names]) d, ?_, ?_⟩
  · rw [half, st.set_of_ne _ (Ne.symm hop), half]
  · rw [due, st.set_of_ne _ (Ne.symm hot), due]

/-- An expiry of the timer takes no time and leaves half the period alone. If the clock is on or its
pin is high now, the timer is set to half a period later. -/
theorem ticked_times (hS : M.Exact S) (hc : c.Readable) (p : Phase) (st : Store ℝ) :
    let st' := c.ticked M p st
    now st' = now st ∧ c.half st' = c.half st ∧
      ((p.on || !p.high) = true → c.due st' = now st + c.half st) := by
  have hnames := hc.nodup
  simp only [names, List.nodup_cons, List.mem_cons, List.not_mem_nil, or_false, not_or] at hnames
  obtain ⟨⟨-, -, hvp, -⟩, ⟨-, hlp, -⟩, -, hpt, -⟩ := hnames
  have hnow : now (c.changed p st) = now st := by
    rw [changed, now_set hc (by simp [names]), now_set hc (by simp [names])]
  have hhalf : c.half (c.changed p st) = c.half st := by
    rw [half, changed, Store.set_of_ne _ _ (Ne.symm hvp), st.set_of_ne _ (Ne.symm hlp), half]
  have hperiod : c.halfPeriod.expr.Yields S (c.changed p st) (c.half (c.changed p st)) :=
    .ident (hc.check _ (by simp [names])) (hc.ne_inf _ (by simp [names])) rfl
  have hdue : M.value ⟨_, Expr.now.add c.halfPeriod.expr⟩ (c.changed p st)
      = .real (now st + c.half st) := by
    rw [← hnow, ← hhalf]
    exact congrArg Datum.real (hS.reads (.add .now hperiod))
  intro st'
  cases hsets : p.on || !p.high with
  | true =>
      have hst' : st' = (c.changed p st).set c.time.name (.real (now st + c.half st)) := by
        rw [← hdue]
        exact if_pos hsets
      rw [hst', now_set hc (by simp [names]), hnow, half, Store.set_of_ne _ _ hpt, due,
        Store.set_self]
      exact ⟨rfl, hhalf, fun _ => rfl⟩
  | false =>
      have hst' : st' = c.changed p st := if_neg (by rw [hsets]; decide)
      rw [hst']
      exact ⟨hnow, hhalf, fun h => by cases h⟩

/-- A clock stays timed while half its period and the time of its timer are kept, and time goes on,
but not beyond a pending expiry. -/
theorem Timed.of_kept {q : Phase} (hs : c.Timed s p) (hs' : c.Shows s' q)
    (hpending : q.pending = p.pending)
    (hsound : (q.on || q.high) = true → (p.on || p.high) = true)
    (hhalf : c.half s'.store = c.half s.store) (hdue : c.due s'.store = c.due s.store)
    (hlater : now s.store ≤ now s'.store)
    (hnot_past : s.pending = true → now s'.store ≤ c.due s.store) : c.Timed s' q := by
  refine ⟨hs', hhalf ▸ hs.half_pos, fun h => hpending.trans (hs.sound (hsound h)), fun hq => ?_⟩
  obtain ⟨hset, -, hnear⟩ := hs.scheduled (hpending.symm.trans hq)
  refine ⟨hs'.pending.trans hq, ?_, ?_⟩ <;> rw [hdue]
  · exact hnot_past hset
  · rw [hhalf]
    exact hnear.trans (add_le_add_left hlater _)

/-- **Acts keep clocks timed**, as long as they may be done. -/
theorem Timed.step (hM : M.LawfulLevels) (hS : M.Exact S) (hc : c.Readable) (hs : c.Timed s p)
    (h : c.Step M c.ahead s a s') (hadmits : c.Admits S s a s') :
    c.Timed s' (p.next (c.ahead s'.store) a) := by
  have hshows := h.shows hM hc.nodup hs.toShows
  have hpending := hshows.pending
  rcases h.store_cases hM hc.nodup hs.toShows with
    ⟨frequency, rfl, hst⟩ | ⟨rfl, hst⟩ | ⟨rfl, hst⟩ | ⟨rfl, hst⟩
  · obtain ⟨x, hx, hpos⟩ := hadmits
    obtain ⟨hnow, hhalf, hdue⟩ := switchedOn_times hS hc hx
    rw [← hst] at hnow hhalf hdue
    have hahead : c.ahead s'.store = true := by
      rw [Clock.ahead, decide_eq_true_iff, hdue, hnow]
      norm_num
    refine ⟨hshows, ?_, fun _ => hahead, fun hp => ⟨hpending.trans hp, ?_, ?_⟩⟩
    · rw [hhalf]
      positivity
    · rw [hdue, hnow]
      norm_num
    · rw [hdue, hnow]
      exact add_le_add_right (le_max_left _ _) _
  · obtain ⟨hnow, hhalf, hdue⟩ := switchedOff_times hc s.store (.level false)
    rw [← hst] at hnow hhalf hdue
    refine hs.of_kept hshows rfl (fun hhigh => ?_) hhalf hdue hnow.ge fun hp => ?_
    · rw [show p.high = true from hhigh, Bool.or_true]
    · rw [hnow]
      exact (hs.scheduled (hs.pending.symm.trans hp)).not_past
  · obtain ⟨hnow, hhalf, hdue⟩ := ticked_times hS hc p s.store
    rw [← hst] at hnow hhalf hdue
    have hpos := hs.half_pos
    refine ⟨hshows, hhalf ▸ hpos, fun hsets => ?_, fun hp => ?_⟩
    · change (p.on || !p.high) = true at hsets
      change ((p.on || !p.high) && c.ahead s'.store) = true
      rw [hsets, Bool.true_and, Clock.ahead, decide_eq_true_iff, hdue hsets, hnow]
      exact lt_add_of_pos_right _ hpos
    · have hsets : (p.on || !p.high) = true := (Bool.and_eq_true_iff.mp hp).1
      refine ⟨hpending.trans hp, ?_, ?_⟩ <;> rw [hdue hsets, hnow]
      · exact le_add_of_nonneg_right hpos.le
      · rw [hhalf]
        exact add_le_add_right (le_max_right _ _) _
  · obtain ⟨hlater, hnot_past⟩ := hadmits
    have hhalf : c.half s'.store = c.half s.store :=
      congrArg Datum.toReal (hst _ (by simp [names]))
    have hdue : c.due s'.store = c.due s.store :=
      congrArg Datum.toReal (hst _ (by simp [names]))
    exact hs.of_kept hshows rfl id hhalf hdue hlater hnot_past

/-- **A clock is timed in all states of a punctual course.** -/
theorem Course.timed (hM : M.LawfulLevels) (hS : M.Exact S) (hc : c.Readable)
    {course : List (Act × State ℝ)} (h : c.Course M c.ahead s course)
    (hpunctual : c.Punctual S s course) (hs : c.Timed s p) :
    ∀ s' ∈ s :: course.map (·.2), ∃ p', c.Timed s' p' := by
  induction course generalizing s p with
  | nil =>
      intro s' hs'
      obtain rfl := List.mem_singleton.mp hs'
      exact ⟨p, hs⟩
  | cons e rest ih =>
      intro s' hs'
      rcases List.mem_cons.mp hs' with rfl | hs'
      · exact ⟨p, hs⟩
      · exact ih h.2 hpunctual.2 (hs.step hM hS hc h.1 hpunctual.1) s' hs'

end Acts

end Clock

/-! ### An exact meaning with levels -/

namespace Simulator

variable (S : Simulator)

/-- The exact meaning of a simulator, with disjunctions and toggles. -/
noncomputable def levels : Meaning ℝ where
  real := S.real
  integer := S.meaning.integer
  bool e st := Meaning.levelsBool e st.integers
  fits := S.meaning.fits
  perform
    | .command (.assign x ⟨.bool, e⟩), st =>
      some (st.set x (.integer (if Meaning.levelsBool e st.integers then 1 else 0)))
    | .command (.toggle x), st =>
      some (st.set x (.integer (if Meaning.plainInteger (.ident x) st.integers = 0 then 1 else 0)))
    | s, st => S.meaning.perform s st

/-- The meaning with disjunctions and toggles is exact. -/
theorem levels_exact : S.levels.Exact S where
  real_literal := S.meaning_exact.real_literal
  integer_literal := S.meaning_exact.integer_literal
  bool_literal b st := Meaning.levels_lawful.bool_literal b _
  integer_ident := S.meaning_exact.integer_ident
  bool_ident x n st h := Meaning.levels_lawful.bool_ident x n _ (by rw [Store.integers, h])
  eq a b st := Meaning.levels_lawful.eq a b _
  lt a b st := Meaning.levels_lawful.lt a b _
  fits := S.meaning_exact.fits
  assign x v st := by
    obtain ⟨k, e⟩ := v
    cases k <;> rfl
  increment := S.meaning_exact.increment
  finish := S.meaning_exact.finish
  reads := S.meaning_exact.reads

/-- The meaning with disjunctions and toggles has lawful levels. -/
theorem levels_lawful : S.levels.LawfulLevels where
  toLawful := S.levels_exact.toLawful
  or a b st := Meaning.levels_lawful.or a b _
  toggle x n st h := by
    have hn : Meaning.plainInteger (.ident x) st.integers = n :=
      Meaning.plain_lawful.integer_ident x n _ (by rw [Store.integers, h])
    change some (st.set x (.integer
      (if Meaning.plainInteger (.ident x) st.integers = 0 then 1 else 0))) = _
    rw [hn]

end Simulator

/-! ### Clocks in modules -/

namespace Clock

section Modules

variable {options : Options} {present name : String} {m₀ : Module} {history : List Operation}
  {pin domain : Net}

/-- The variables of a clock in a module can be read. -/
theorem readable_ofNets (h₀ : Module.new? options present name = .ok m₀)
    (hfault : (m₀.after history).fault = none) (hclock : .clock pin domain ∈ history) :
    (ofNets pin domain).Readable := by
  -- All of the names end in a dollar sign.
  have hdollar : ∀ x ∈ (ofNets pin domain).names, x.toList.getLast? = some '$' := by
    simp [names, ofNets, Net.owned]
  have hregistered : ∀ x ∈ (ofNets pin domain).names,
      ∃ v, .named x v ∈ Clock.registrations options.devices pin domain := by
    simp only [names, ofNets, List.forall_mem_cons]
    refine ⟨⟨⟨_, .bool false⟩, ?_⟩, ⟨⟨_, .bool false⟩, ?_⟩, ⟨⟨_, .bool false⟩, ?_⟩,
      ⟨⟨_, .real 0.5e-6⟩, ?_⟩, ⟨⟨_, .real 1e9⟩, ?_⟩, List.forall_mem_nil _⟩ <;>
      simp [Clock.registrations, DigitalOutput.registrations, Registration.flag,
        Registration.quantity]
  refine ⟨nodup_names pin domain, fun x hx => ?_, fun x hx => ?_, fun htime => ?_⟩
  · obtain ⟨v, hv⟩ := hregistered x hx
    have hdeclared : ⟨x, v⟩ ∈ (m₀.after history).declaredVariables :=
      Module.registrations_isIn h₀ hfault hclock hv
    have hnamed := Module.wellNamed_after h₀ history
    refine hnamed.accepted _ (hnamed.perm.mem_iff.mp ?_)
    exact List.mem_append_right _ (List.mem_map_of_mem hdeclared)
  · rintro rfl
    exact absurd (hdollar _ hx) (by decide)
  · exact absurd (hdollar _ htime) (by decide)

/-- At the start a clock is off, its pin is low, and its timer is set to a time that no simulation
reaches. -/
theorem timed_start (h₀ : Module.new? options present name = .ok m₀)
    (hfault : (m₀.after history).fault = none) (hclock : .clock pin domain ∈ history)
    {S : Simulator} {M : Meaning ℝ} (hS : M.Exact S) (st : Store ℝ) :
    (ofNets pin domain).Timed (start M (m₀.after history) st) ⟨false, false, false⟩ ∧
      (ofNets pin domain).due (start M (m₀.after history) st).store = 1e9 := by
  have hinitial (part : String) (initial : Float) {r : ℝ}
      (hpart : .quantity (pin.owned part) initial
        ∈ Clock.registrations options.devices pin domain)
      (hr : ∀ su, (Expr.real initial).Yields S su r) :
      M.initial (m₀.after history) st (pin.owned part) = .real r := by
    have hdeclared : ⟨pin.owned part, ⟨_, .real initial⟩⟩
        ∈ (m₀.after history).declaredVariables :=
      Module.registrations_isIn h₀ hfault hclock hpart
    exact Meaning.initial_eq hS.toLawful (Module.initialised_after h₀ history)
      (Module.wellNamed_after h₀ history).nodup_variables hdeclared
      (fun su => congrArg Datum.real (hS.reads (hr su))) st
  have hhalf : M.initial (m₀.after history) st (pin.owned "halfPeriod") = .real 0.5e-6 :=
    hinitial _ 0.5e-6 (by simp [Clock.registrations]) fun _ =>
      .real ⟨5000000, -7⟩ (by decide +kernel) (by norm_num)
  have htime : M.initial (m₀.after history) st (pin.owned "time") = .real 1e9 :=
    hinitial _ 1e9 (by simp [Clock.registrations]) fun _ =>
      .real ⟨1000000, 9⟩ (by decide +kernel) (by norm_num)
  refine ⟨⟨shows_start h₀ hfault hclock hS.toLawful st, ?_, fun h => ?_, fun h => ?_⟩, ?_⟩
  · change 0 < Datum.toReal (M.initial (m₀.after history) st (pin.owned "halfPeriod"))
    rw [hhalf, Datum.toReal]
    norm_num
  · cases h
  · cases h
  · exact congrArg Datum.toReal htime

/-- **A clock neither stalls nor stays high.** Its block stands in the prologue, and its driver in
the epilogue. At the start its timer is set to a time that counts as none. From then on, whatever is
done with the clock, in any order, with positive frequencies: the level that drives the pin is the
level that the clock keeps, and while the clock is on or its pin is high, an expiry of its timer is
scheduled. So a clock without a scheduled expiry is off, and its pin is low. Nothing keeps anything
from being done with the clock. -/
theorem never_stalls (h₀ : Module.new? options present name = .ok m₀)
    (hfault : (m₀.after history).fault = none) (hclock : .clock pin domain ∈ history) :
    let m := m₀.after history
    let c := ofNets pin domain
    .block (.onEvent (.after c.time.expr)) c.tick ∈ prologueStatements m.prologue ∧
    .command ((Branch.potential pin).contribute (domain.potential.mul
      (c.driver.edges.smooth (.indicator c.driver.value.expr)))) ∈ m.epilogue ∧
    ∀ (S : Simulator) (M : Meaning ℝ), M.LawfulLevels → M.Exact S → ∀ st : Store ℝ,
      c.due (start M m st).store = 1e9 ∧ (start M m st).pending = false ∧
      ∀ course : List (Act × State ℝ),
        c.Course M c.ahead (start M m st) course → c.Punctual S (start M m st) course →
        ∀ s ∈ start M m st :: course.map (·.2),
          M.bool c.driver.value.expr s.store = M.bool c.level.expr s.store ∧
          (M.bool c.isOn.expr s.store = true ∨ M.bool c.level.expr s.store = true →
            c.Scheduled s) ∧
          (¬ c.Scheduled s →
            M.bool c.isOn.expr s.store = false ∧ M.bool c.driver.value.expr s.store = false) ∧
          ∀ a, ∃ s', c.Step M c.ahead s a s' := by
  intro m c
  have hblock : .block (.onEvent (.after c.time.expr)) c.tick ∈ prologueStatements m.prologue :=
    Module.registrations_isIn h₀ hfault hclock (r := .prologue _)
      (by simp [Operation.registrations, Clock.registrations, c, ofNets, Variable.expr])
  have hdriver : .command ((Branch.potential pin).contribute (domain.potential.mul
      (c.driver.edges.smooth (.indicator c.driver.value.expr)))) ∈ m.epilogue :=
    Module.registrations_isIn h₀ hfault hclock (r := .epilogue _)
      (by simp [Operation.registrations, Clock.registrations, DigitalOutput.registrations,
        Registration.contribution, c, ofNets, Variable.expr])
  have hc : c.Readable := readable_ofNets h₀ hfault hclock
  refine ⟨hblock, hdriver, fun S M hM hS st => ?_⟩
  obtain ⟨hstart, hdue⟩ := timed_start h₀ hfault hclock hS st
  refine ⟨hdue, rfl, fun course hcourse hpunctual s hs => ?_⟩
  obtain ⟨p, hp⟩ := hcourse.timed hM hS hc hpunctual hstart s hs
  have hon : M.bool c.isOn.expr s.store = p.on := hM.bool_level hp.isOn
  have hlevel : M.bool c.level.expr s.store = p.high := hM.bool_level hp.level
  have hvalue : M.bool c.driver.value.expr s.store = p.high := hM.bool_level hp.value
  have hscheduled (h : p.on = true ∨ p.high = true) : c.Scheduled s :=
    hp.scheduled (hp.sound (Bool.or_eq_true_iff.mpr h))
  rw [hon, hlevel, hvalue]
  refine ⟨rfl, hscheduled, fun h => ?_, fun a => ?_⟩
  · simpa [not_or] using mt hscheduled h
  · obtain ⟨s', hstep, -⟩ := exists_step c.ahead hM hc.nodup hp.toShows a
    exact ⟨s', hstep⟩

/-- Nothing may happen until any time. -/
theorem exists_wait {M : Meaning ℝ} {c : Clock} (ahead : Store ℝ → Bool) (hc : c.Readable)
    (s : State ℝ) (t : ℝ) :
    ∃ s', c.Step M ahead s .other s' ∧ now s'.store = t ∧ c.half s'.store = c.half s.store := by
  have hsame : ∀ y ∈ c.names, s.store.set Environment.time.name (.real t) y = s.store y :=
    fun y hy => s.store.set_of_ne _ fun heq => hc.time (by rwa [← heq])
  refine ⟨⟨_, s.pending⟩, .other hsame, ?_, congrArg Datum.toReal (hsame _ (by simp [names]))⟩
  exact congrArg Datum.toReal (s.store.set_self Environment.time.name (.real t))

/-- **The first expiry** of a clock that is switched on. Its timer expires a nanosecond later, and
then the clock is on, its pin is high, and its timer is set to half a period later. -/
theorem exists_first_expiry {S : Simulator} {M : Meaning ℝ} {c : Clock} (hM : M.LawfulLevels)
    (hS : M.Exact S) (hc : c.Readable) {s : State ℝ} {pending : Bool}
    (hs : c.Shows s ⟨false, false, pending⟩) {frequency : Expr .real} {x : ℝ}
    (hx : frequency.Yields S s.store x) :
    ∃ s₁ s₂ s₃,
      c.Course M c.ahead s [(.on frequency, s₁), (.other, s₂), (.tick, s₃)] ∧
      c.due s₁.store = now s₁.store + 1e-9 ∧ now s₂.store = c.due s₁.store ∧
      c.due s₃.store = now s₃.store + 0.5 / x ∧
      c.Shows s₃ ⟨true, true, c.ahead s₃.store⟩ := by
  obtain ⟨s₁, h₁, hs₁⟩ := exists_step c.ahead hM hc.nodup hs (.on frequency)
  have htimes₁ : now s₁.store = now s.store ∧ c.half s₁.store = 0.5 / x ∧
      c.due s₁.store = now s.store + 1e-9 := by
    rcases h₁.store_cases hM hc.nodup hs with ⟨_, ⟨⟩, hst⟩ | ⟨⟨⟩, -⟩ | ⟨⟨⟩, -⟩ | ⟨⟨⟩, -⟩
    rw [hst]
    exact switchedOn_times hS hc hx
  obtain ⟨hnow₁, hhalf₁, hdue₁⟩ := htimes₁
  obtain ⟨s₂, h₂, hnow₂, hhalf₂⟩ := exists_wait c.ahead hc s₁ (c.due s₁.store)
  have hs₂ := h₂.shows hM hc.nodup hs₁
  obtain ⟨s₃, h₃, hs₃⟩ := exists_step c.ahead hM hc.nodup hs₂ .tick
  have htimes₃ : now s₃.store = now s₂.store ∧ c.due s₃.store = now s₂.store + c.half s₂.store := by
    rcases h₃.store_cases hM hc.nodup hs₂ with ⟨_, ⟨⟩, -⟩ | ⟨⟨⟩, -⟩ | ⟨-, hst⟩ | ⟨⟨⟩, -⟩
    obtain ⟨hnow, -, hdue⟩ := ticked_times hS hc _ _
    rw [hst]
    exact ⟨hnow, hdue rfl⟩
  obtain ⟨hnow₃, hdue₃⟩ := htimes₃
  refine ⟨s₁, s₂, s₃, ⟨h₁, h₂, h₃, trivial⟩, ?_, hnow₂, ?_, hs₃⟩
  · rw [hdue₁, hnow₁]
  · rw [hdue₃, hnow₃, hhalf₂, hhalf₁]

/-- A clock that is switched on, and whose timer expires: its pin is high, and the next expiry is
scheduled. -/
theorem never_stalls_bench :
    ∃ m₀, Module.new? .standard "" "bench" = .ok m₀ ∧
      let c := ofNets (.scalar "clk") (.scalar "vdd")
      ∀ (S : Simulator) (st : Store ℝ), ∃ s₁ s₂ s₃,
        let course := [(.on (.real 1e6), s₁), (.other, s₂), (.tick, s₃)]
        c.Course S.levels c.ahead (start S.levels (m₀.after bench) st) course ∧
        c.Punctual S (start S.levels (m₀.after bench) st) course ∧
        now s₂.store = c.due s₁.store ∧
        S.levels.bool c.driver.value.expr s₃.store = true ∧ c.Scheduled s₃ := by
  obtain ⟨m₀, h₀⟩ : ∃ m₀, Module.new? .standard "" "bench" = .ok m₀ := ⟨_, rfl⟩
  have hclock : .clock (.scalar "clk") (.scalar "vdd") ∈ bench := by simp [bench]
  refine ⟨m₀, h₀, fun S st => ?_⟩
  have hM := S.levels_lawful
  have hc := readable_ofNets h₀ (fault_bench h₀) hclock
  have hs₀ := shows_start h₀ (fault_bench h₀) hclock hM.toLawful st
  have hfrequency : (Expr.real 1e6).Yields S (start S.levels (m₀.after bench) st).store 1e6 :=
    .real ⟨1000000, 6⟩ (by decide +kernel) (by norm_num)
  obtain ⟨s₁, s₂, s₃, hcourse, hdue, hwaited, -, hs₃⟩ :=
    exists_first_expiry hM S.levels_exact hc hs₀ hfrequency
  have hpunctual : (ofNets (.scalar "clk") (.scalar "vdd")).Punctual S
      (start S.levels (m₀.after bench) st)
      [(.on (.real 1e6), s₁), (.other, s₂), (.tick, s₃)] := by
    refine ⟨⟨_, hfrequency, by norm_num⟩, ⟨?_, fun _ => hwaited.le⟩, trivial, trivial⟩
    rw [hwaited, hdue]
    norm_num
  obtain ⟨-, -, hall⟩ := never_stalls h₀ (fault_bench h₀) hclock
  obtain ⟨-, -, hcourses⟩ := hall S S.levels hM S.levels_exact st
  obtain ⟨-, hscheduled, -⟩ := hcourses _ hcourse hpunctual s₃ (by simp)
  exact ⟨s₁, s₂, s₃, hcourse, hpunctual, hwaited, hM.bool_level hs₃.value,
    hscheduled (.inl (hM.bool_level hs₃.isOn))⟩

/-- **A clock with a negative frequency.** When its timer has expired for the first time, the clock
is on and its pin is high, but the timer is set to a time in the past: no expiry is scheduled. -/
theorem stalls_with_negative_frequency :
    ∃ m₀, Module.new? .standard "" "bench" = .ok m₀ ∧
      let c := ofNets (.scalar "clk") (.scalar "vdd")
      ∀ (S : Simulator) (st : Store ℝ), ∃ s₁ s₂ s₃,
        c.Course S.levels c.ahead (start S.levels (m₀.after bench) st)
          [(.on (Expr.real 1e6).negReal, s₁), (.other, s₂), (.tick, s₃)] ∧
        now s₂.store = c.due s₁.store ∧
        S.levels.bool c.isOn.expr s₃.store = true ∧
        S.levels.bool c.driver.value.expr s₃.store = true ∧
        c.due s₃.store < now s₃.store ∧ s₃.pending = false ∧ ¬ c.Scheduled s₃ := by
  obtain ⟨m₀, h₀⟩ : ∃ m₀, Module.new? .standard "" "bench" = .ok m₀ := ⟨_, rfl⟩
  have hclock : .clock (.scalar "clk") (.scalar "vdd") ∈ bench := by simp [bench]
  refine ⟨m₀, h₀, fun S st => ?_⟩
  have hM := S.levels_lawful
  have hc := readable_ofNets h₀ (fault_bench h₀) hclock
  have hs₀ := shows_start h₀ (fault_bench h₀) hclock hM.toLawful st
  have hfrequency : (Expr.real 1e6).negReal.Yields S
      (start S.levels (m₀.after bench) st).store (-1e6) :=
    .neg (.real ⟨1000000, 6⟩ (by decide +kernel) (by norm_num))
  obtain ⟨s₁, s₂, s₃, hcourse, -, hwaited, hdue, hs₃⟩ :=
    exists_first_expiry hM S.levels_exact hc hs₀ hfrequency
  have hpast : (ofNets (.scalar "clk") (.scalar "vdd")).due s₃.store < now s₃.store := by
    rw [hdue]
    norm_num
  have hpending : s₃.pending = false := by
    rw [hs₃.pending, Clock.ahead, decide_eq_false_iff_not, not_lt]
    exact hpast.le
  refine ⟨s₁, s₂, s₃, hcourse, hwaited, hM.bool_level hs₃.isOn, hM.bool_level hs₃.value, hpast,
    hpending, fun h => ?_⟩
  exact absurd h.not_past hpast.not_ge

end Modules

end Clock

end Stimulus
