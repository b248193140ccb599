import Mathlib.Data.List.Basic

/-!
# Machines with logs

A machine makes its steps one at a time, and each step may log events. Two machines are compared by
what they log: they **log the same** if every finite beginning of a log of one of them is one of the
other. This speaks about runs that end and about runs that do not.

## Main definitions

* `Machine.log`, `Machine.trace`: what a machine logs, and the states it is in, in its first steps.
* `Machine.Always`: something holds in all states of a run.
* `Machine.LogsSame`: two machines log the same.

## Main results

* `Machine.logs_same_of_simulates`: a simulation in which the second machine answers each step of
  the first one, and does not stand still for ever, gives machines that log the same.
-/

namespace Stimulus

/-- A machine takes a state to the next one, and logs events on the way. It ends where it has no
step. -/
abbrev Machine (σ ε : Type) := σ → Option (List ε × σ)

namespace Machine

variable {σ τ ε : Type}

/-- What a machine logs in its first steps. -/
def log (step : Machine σ ε) : Nat → σ → List ε
  | 0, _ => []
  | n + 1, s =>
    match step s with
    | none => []
    | some (es, s') => es ++ log step n s'

/-- A machine that logs only some events. -/
def visible (p : ε → Bool) (step : Machine σ ε) : Machine σ ε := fun s =>
  (step s).map fun (es, s') => (es.filter p, s')

/-- A machine takes a state to another one in a number of steps, and logs events on the way. -/
inductive Steps (step : Machine σ ε) : Nat → σ → List ε → σ → Prop
  | refl (s : σ) : Steps step 0 s [] s
  | head {n : Nat} {s s' s'' : σ} {es more : List ε} :
      step s = some (es, s') → Steps step n s' more s'' →
      Steps step (n + 1) s (es ++ more) s''

/-- The states of a run, in its first steps. -/
def trace (step : Machine σ ε) : Nat → σ → List σ
  | 0, s => [s]
  | n + 1, s =>
    s :: match step s with
      | none => []
      | some (_, s') => trace step n s'

/-- Something holds in all states of the run from a state on. -/
def Always (step : Machine σ ε) (p : σ → Prop) (s : σ) : Prop :=
  ∀ n, ∀ a ∈ trace step n s, p a

/-- Whether a run ends within some steps and something holds in all its states. -/
def check (step : Machine σ ε) (p : σ → Bool) : Nat → σ → Bool
  | 0, s => p s && (step s).isNone
  | n + 1, s =>
    p s && match step s with
      | none => true
      | some (_, s') => check step p n s'

namespace Always

variable {step : Machine σ ε} {p : σ → Prop} {s s' : σ} {es : List ε}

/-- What always holds, holds now. -/
theorem now (h : Always step p s) : p s :=
  h 0 s List.mem_cons_self

/-- What always holds, holds from the next state on. -/
theorem next (h : Always step p s) (hstep : step s = some (es, s')) : Always step p s' := by
  intro n a ha
  refine h (n + 1) a ?_
  rw [trace, hstep]
  exact List.mem_cons_of_mem _ ha

/-- What holds now, and always from the next state on, holds always. -/
theorem of_cases (hnow : p s)
    (hnext : ∀ es s', step s = some (es, s') → Always step p s') : Always step p s := by
  intro n a ha
  cases n with
  | zero =>
      obtain rfl := List.mem_singleton.mp ha
      exact hnow
  | succ n =>
      rw [trace, List.mem_cons] at ha
      rcases ha with rfl | ha
      · exact hnow
      · cases hstep : step s with
        | none =>
            rw [hstep] at ha
            cases ha
        | some x =>
            rw [hstep] at ha
            exact hnext x.1 x.2 hstep n a ha

/-- What is kept by every step holds always. -/
theorem of_invariant (hs : p s)
    (hkeeps : ∀ a es a', p a → step a = some (es, a') → p a') : Always step p s := by
  intro n
  induction n generalizing s with
  | zero =>
      intro a ha
      obtain rfl := List.mem_singleton.mp ha
      exact hs
  | succ n ih =>
      intro a ha
      rw [trace, List.mem_cons] at ha
      rcases ha with rfl | ha
      · exact hs
      · cases hstep : step s with
        | none =>
            rw [hstep] at ha
            cases ha
        | some x =>
            rw [hstep] at ha
            exact ih (hkeeps s x.1 x.2 hs hstep) a ha

/-- What has been checked in a run that ends, holds always. -/
theorem of_check {p : σ → Bool} {k : Nat} (h : check step p k s = true) :
    Always step (p · = true) s := by
  induction k generalizing s with
  | zero =>
      rw [check, Bool.and_eq_true, Option.isNone_iff_eq_none] at h
      exact .of_cases h.1 fun es s' hstep => by
        rw [h.2] at hstep
        cases hstep
  | succ k ih =>
      rw [check, Bool.and_eq_true] at h
      refine .of_cases h.1 fun es s' hstep => ih ?_
      have hrest := h.2
      rwa [hstep] at hrest

end Always

namespace Steps

variable {step : Machine σ ε} {n k : Nat} {s s' s'' : σ} {es fs : List ε}

/-- A single step. -/
theorem single (h : step s = some (es, s')) : Steps step 1 s es s' := by
  have := Steps.head h (.refl s')
  rwa [List.append_nil] at this

/-- Steps one after the other. -/
theorem trans (h : Steps step n s es s') (h' : Steps step k s' fs s'') :
    Steps step (n + k) s (es ++ fs) s'' := by
  induction h with
  | refl s =>
      rw [Nat.zero_add]
      exact h'
  | head hstep _ ih =>
      rw [Nat.add_right_comm, List.append_assoc]
      exact .head hstep (ih h')

/-- The log of steps and of what comes after them. -/
theorem log_add (h : Steps step n s es s') (k : Nat) :
    log step (n + k) s = es ++ log step k s' := by
  induction h with
  | refl s => rw [Nat.zero_add, List.nil_append]
  | head hstep _ ih =>
      rw [Nat.add_right_comm, log, hstep]
      simp only [ih, List.append_assoc]

end Steps

/-- A longer run logs more. -/
theorem log_prefix (step : Machine σ ε) (n k : Nat) (s : σ) :
    log step n s <+: log step (n + k) s := by
  induction n generalizing s with
  | zero => exact List.nil_prefix
  | succ n ih =>
      rw [Nat.add_right_comm, log, log]
      cases step s with
      | none => exact List.prefix_refl _
      | some x => exact (List.prefix_append_right_inj _).mpr (ih x.2)

/-- A machine that has ended logs nothing. -/
theorem log_of_none {step : Machine σ ε} {s : σ} (h : step s = none) (n : Nat) :
    log step n s = [] := by
  cases n with
  | zero => rfl
  | succ n => rw [log, h]

/-- Nothing is logged after a run has ended. -/
theorem log_of_check {step : Machine σ ε} {p : σ → Bool} {s : σ} {k : Nat}
    (h : check step p k s = true) (n : Nat) : log step n s <+: log step k s := by
  induction k generalizing s n with
  | zero =>
      rw [check, Bool.and_eq_true, Option.isNone_iff_eq_none] at h
      rw [log_of_none h.2]
      exact List.nil_prefix
  | succ k ih =>
      rw [check, Bool.and_eq_true] at h
      cases n with
      | zero => exact List.nil_prefix
      | succ n =>
          have hrest := h.2
          rw [log, log]
          cases hstep : step s with
          | none => exact List.prefix_refl _
          | some x =>
              rw [hstep] at hrest
              exact (List.prefix_append_right_inj _).mpr (ih hrest n)

/-! ### Simulation -/

/-- Two states log the same: every beginning of a log of one of them is one of the other. -/
def LogsSame (first : Machine σ ε) (second : Machine τ ε) (a : σ) (b : τ) : Prop :=
  ∀ l, (∃ n, l <+: log first n a) ↔ ∃ n, l <+: log second n b

/-- The second machine **simulates** the first one along a relation. It answers a step by any
number of steps that log the same, and by at least one step unless the rank of the first state goes
down. Where the first machine ends, it ends without logging anything. -/
def Simulates (first : Machine σ ε) (second : Machine τ ε) (rank : σ → Nat)
    (related : σ → τ → Prop) : Prop :=
  ∀ a b, related a b →
    match first a with
    | none => ∃ n b', Steps second n b [] b' ∧ second b' = none
    | some (es, a') => ∃ n b', Steps second n b es b' ∧ related a' b' ∧ (0 < n ∨ rank a' < rank a)

variable {first : Machine σ ε} {second : Machine τ ε} {rank : σ → Nat}
  {related : σ → τ → Prop}

/-- What the first machine logs, the second one logs as well. -/
theorem Simulates.forward (h : Simulates first second rank related) {a : σ} {b : τ}
    (hab : related a b) (n : Nat) : ∃ k, log first n a <+: log second k b := by
  induction n generalizing a b with
  | zero => exact ⟨0, List.nil_prefix⟩
  | succ n ih =>
      have hstep := h a b hab
      rw [log]
      cases ha : first a with
      | none => exact ⟨0, List.nil_prefix⟩
      | some x =>
          rw [ha] at hstep
          obtain ⟨i, b', hsteps, hab', -⟩ := hstep
          obtain ⟨k, hk⟩ := ih hab'
          refine ⟨i + k, ?_⟩
          rw [hsteps.log_add]
          exact (List.prefix_append_right_inj _).mpr hk

/-- What the second machine logs, the first one logs as well. The induction is on the steps of the
second machine and, while it stands still, on the rank. -/
theorem Simulates.backward (h : Simulates first second rank related) {a : σ} {b : τ}
    (hab : related a b) (n : Nat) : ∃ k, log second n b <+: log first k a := by
  induction n using Nat.strongRecOn generalizing a b with
  | ind n ih =>
      induction hr : rank a using Nat.strongRecOn generalizing a b with
      | ind r ihr =>
          have hstep := h a b hab
          cases ha : first a with
          | none =>
              rw [ha] at hstep
              obtain ⟨i, b', hsteps, hend⟩ := hstep
              refine ⟨0, ?_⟩
              have hall := log_prefix second n i b
              rw [Nat.add_comm, hsteps.log_add, log_of_none hend, List.append_nil] at hall
              exact hall
          | some x =>
              obtain ⟨es, a'⟩ := x
              rw [ha] at hstep
              obtain ⟨i, b', hsteps, hab', hprogress⟩ := hstep
              have hfirst (k : Nat) : log first (k + 1) a = es ++ log first k a' := by
                rw [log, ha]
              rcases Nat.le_total n i with hle | hge
              · -- What the second machine has logged is the beginning of one answer.
                refine ⟨1, ?_⟩
                have hall := log_prefix second n (i - n) b
                rw [Nat.add_sub_cancel' hle, ← Nat.add_zero i, hsteps.log_add] at hall
                rw [hfirst]
                exact hall
              · obtain ⟨j, rfl⟩ := Nat.exists_eq_add_of_le hge
                -- The answer has been given in full: either it took steps, or the rank goes down.
                have hrest : ∃ k, log second j b' <+: log first k a' := by
                  rcases Nat.eq_zero_or_pos i with hi | hi
                  · have hrank : rank a' < r := by
                      have := hprogress.resolve_left (by omega)
                      omega
                    obtain ⟨k, hk⟩ := ihr (rank a') hrank hab' rfl
                    rw [hi, Nat.zero_add] at hk
                    exact ⟨k, hk⟩
                  · exact ih j (by omega) hab'
                obtain ⟨k, hk⟩ := hrest
                refine ⟨k + 1, ?_⟩
                rw [hfirst, hsteps.log_add]
                exact (List.prefix_append_right_inj _).mpr hk

/-- **Simulations keep logs.** -/
theorem logs_same_of_simulates (h : Simulates first second rank related) {a : σ} {b : τ}
    (hab : related a b) : LogsSame first second a b := by
  intro l
  constructor
  · rintro ⟨n, hl⟩
    obtain ⟨k, hk⟩ := h.forward hab n
    exact ⟨k, hl.trans hk⟩
  · rintro ⟨n, hl⟩
    obtain ⟨k, hk⟩ := h.backward hab n
    exact ⟨k, hl.trans hk⟩

end Machine

end Stimulus
