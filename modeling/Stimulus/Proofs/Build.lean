import Stimulus.Sequence.Compile

/-!
# Reasoning about construction steps

A construction step takes a module to a result or to a fault, and to a module in both cases. Two
ways to reason about steps are set up here.

* **Inversion.** A step that succeeds is taken apart into the parts it is made of, each of which
  has succeeded (`Build.bind_ok` and its companions).
* **Relations.** A relation between the module before and the module after, which may look at the
  fault as well, holds of a composed step as soon as it holds of its parts (`Build.Relates`).

## Main results

* `Sequence.compileAll_relates`: what holds of the registration of signals and of the declaration
  of counters holds of the compilation of a whole script.
-/

namespace Stimulus

namespace Build

variable {α β : Type}

/-! ### Steps that succeed -/

/-- A composed step whose first part succeeds goes on with its second part. -/
theorem bind_of_ok {x : Build α} {f : α → Build β} {m m₁ : Module} {a : α}
    (h : x m = .ok a m₁) : (x >>= f) m = f a m₁ := by
  change EStateM.bind x f m = _
  rw [EStateM.bind, h]

/-- A composed step whose first part fails ends there. -/
theorem bind_of_error {x : Build α} {f : α → Build β} {m m₁ : Module} {e : Fault}
    (h : x m = .error e m₁) : (x >>= f) m = .error e m₁ := by
  change EStateM.bind x f m = _
  rw [EStateM.bind, h]

/-- A composed step succeeds exactly if both of its parts do, one after the other. -/
theorem bind_ok {x : Build α} {f : α → Build β} {m m' : Module} {b : β} :
    (x >>= f) m = .ok b m' ↔ ∃ a m₁, x m = .ok a m₁ ∧ f a m₁ = .ok b m' := by
  cases hx : x m with
  | ok a m₁ =>
      rw [bind_of_ok hx]
      constructor
      · intro h
        exact ⟨a, m₁, rfl, h⟩
      · rintro ⟨a', m₁', h, h'⟩
        injection h with h₁ h₂
        subst h₁ h₂
        exact h'
  | error e m₁ =>
      rw [bind_of_error hx]
      simp

/-- A composed check succeeds exactly if both of its parts do, one after the other. -/
theorem check_bind_ok {x : Except Fault α} {f : α → Except Fault β} {b : β} :
    x >>= f = .ok b ↔ ∃ a, x = .ok a ∧ f a = .ok b := by
  cases x with
  | ok a =>
      constructor
      · intro h
        exact ⟨a, rfl, h⟩
      · rintro ⟨a', ha, h⟩
        cases ha
        exact h
  | error e =>
      constructor
      · intro h
        cases h
      · rintro ⟨a', ha, -⟩
        cases ha

/-- A step that only gives a result changes nothing. -/
theorem pure_ok {a b : α} {m m' : Module} :
    (pure a : Build α) m = .ok b m' ↔ a = b ∧ m = m' := by
  change EStateM.Result.ok a m = _ ↔ _
  simp

/-- Reading the module changes nothing. -/
theorem get_ok {m m' : Module} {b : Module} :
    (get : Build Module) m = .ok b m' ↔ m = b ∧ m = m' := by
  change EStateM.Result.ok m m = _ ↔ _
  simp

/-- A change of the module always succeeds. -/
theorem modify_ok {f : Module → Module} {m m' : Module} {u : PUnit} :
    (modify f : Build PUnit) m = .ok u m' ↔ f m = m' := by
  change EStateM.Result.ok PUnit.unit (f m) = _ ↔ _
  simp

/-- A step that fails does not succeed. -/
theorem fail_ok {f : Fault} {m m' : Module} {a : α} :
    (fail f : Build α) m = .ok a m' ↔ False := by
  change EStateM.Result.error f _ = _ ↔ _
  simp

/-- Going on with a value that has passed its check. -/
theorem ofExcept_of_ok (a : α) : ofExcept (.ok a) = pure a :=
  rfl

/-- A step that goes on with a checked value succeeds exactly if the check did. -/
theorem ofExcept_ok {e : Except Fault α} {m m' : Module} {a : α} :
    (ofExcept e) m = .ok a m' ↔ e = .ok a ∧ m = m' := by
  cases e with
  | ok b => simp only [ofExcept, pure_ok, Except.ok.injEq]
  | error f => simp only [ofExcept, fail_ok, reduceCtorEq, false_and]

/-- The result of a step at a module, if it succeeds. -/
def value? (x : Build α) (m : Module) : Option α :=
  match x m with
  | .ok a _ => some a
  | .error .. => none

/-- A step that has a result succeeds with it. -/
theorem value?_eq_some {x : Build α} {m : Module} {a : α} :
    x.value? m = some a ↔ ∃ m', x m = .ok a m' := by
  unfold value?
  cases x m with
  | ok b m' => simp
  | error f m' => simp

/-! ### Relations between before and after -/

/-- The outcome of a step at a module is related to that module. A step that succeeds comes without
a fault. -/
def RelatesAt (R : Module → Option Fault → Module → Prop) (x : Build α) (m : Module) : Prop :=
  match x m with
  | .ok _ m' => R m none m'
  | .error f m' => R m (some f) m'

/-- Every outcome of a step is related to the module before it. -/
def Relates (R : Module → Option Fault → Module → Prop) (x : Build α) : Prop :=
  ∀ m, RelatesAt R x m

/-- A relation that composed steps inherit from their parts. -/
structure Composes (R : Module → Option Fault → Module → Prop) : Prop where
  refl : ∀ m, R m none m
  trans : ∀ {m₁ m₂ m₃ f}, R m₁ none m₂ → R m₂ f m₃ → R m₁ f m₃
  fail : ∀ m f, R m (some f) { m with fault := m.fault.or (some f) }

variable {R : Module → Option Fault → Module → Prop}

/-- The relation of a step that succeeds. -/
theorem Relates.ok {x : Build α} (h : Relates R x) {m m' : Module} {a : α}
    (hx : x m = .ok a m') : R m none m' := by
  have := h m
  rwa [RelatesAt, hx] at this

/-- The relation of a step that fails. -/
theorem Relates.error {x : Build α} (h : Relates R x) {m m' : Module} {f : Fault}
    (hx : x m = .error f m') : R m (some f) m' := by
  have := h m
  rwa [RelatesAt, hx] at this

/-- A step that is related is related by every weaker relation. -/
theorem Relates.mono {S : Module → Option Fault → Module → Prop} {x : Build α} (h : Relates R x)
    (hRS : ∀ m f m', R m f m' → S m f m') : Relates S x := by
  intro m
  unfold RelatesAt
  split
  case h_1 hx => exact hRS _ _ _ (h.ok hx)
  case h_2 hx => exact hRS _ _ _ (h.error hx)

/-- A change of the module is related if every module is related to the changed one. -/
theorem relates_modify {f : Module → Module} (h : ∀ m, R m none (f m)) :
    Relates R (modify f : Build PUnit) :=
  h

/-- A step with two alternatives is related if both of them are. -/
theorem relates_ite {p : Prop} [Decidable p] {x y : Build α} (hx : Relates R x)
    (hy : Relates R y) : Relates R (if p then x else y) := by
  split
  · exact hx
  · exact hy

namespace Composes

variable (hR : Composes R)

include hR

/-- A step that only gives a result is related. -/
theorem relates_pure (a : α) : Relates R (pure a : Build α) :=
  hR.refl

/-- Reading the module is related. -/
theorem relates_get : Relates R (get : Build Module) :=
  hR.refl

/-- A failing step is related. -/
theorem relates_fail (f : Fault) : Relates R (Build.fail f : Build α) :=
  fun m => hR.fail m f

/-- Going on with a checked value is related. -/
theorem relates_ofExcept (e : Except Fault α) : Relates R (ofExcept e) := by
  cases e with
  | ok a => exact hR.relates_pure a
  | error f => exact hR.relates_fail f

/-- A composed step is related at a module if its first part is, and its second part is at every
module. -/
theorem relatesAt_bind {x : Build α} {f : α → Build β} {m : Module} (hx : RelatesAt R x m)
    (hf : ∀ a, Relates R (f a)) : RelatesAt R (x >>= f) m := by
  unfold RelatesAt at hx
  cases h : x m with
  | error e m₁ =>
      rw [h] at hx
      rw [RelatesAt, bind_of_error h]
      exact hx
  | ok a m₁ =>
      rw [h] at hx
      rw [RelatesAt, bind_of_ok h]
      cases h' : f a m₁ with
      | ok b m₂ => exact hR.trans hx ((hf a).ok h')
      | error e m₂ => exact hR.trans hx ((hf a).error h')

/-- A composed step is related if its parts are. -/
theorem relates_bind {x : Build α} {f : α → Build β} (hx : Relates R x)
    (hf : ∀ a, Relates R (f a)) : Relates R (x >>= f) :=
  fun m => hR.relatesAt_bind (hx m) hf

/-- Going on with a checked value is related if going on with every value that passes is. -/
theorem relates_ofExcept_bind {e : Except Fault α} {f : α → Build β}
    (hf : ∀ a, e = .ok a → Relates R (f a)) : Relates R (ofExcept e >>= f) := by
  cases e with
  | ok a => exact hf a rfl
  | error cause => exact hR.relates_fail cause

/-- Reading the module first and going on with it is related if going on is. -/
theorem relates_get_bind {f : Module → Build α} (hf : ∀ m, Relates R (f m)) :
    Relates R (get >>= f) :=
  hR.relates_bind hR.relates_get hf

end Composes

end Build

open Build

/-! ### Scripts -/

/-- A relation that holds of the registration of signals and of the declaration of counters holds
of the compilation of a whole script. -/
theorem Sequence.compileAll_relates {R : Module → Option Fault → Module → Prop}
    (hR : Composes R) {index : Nat}
    (hsignal : ∀ event, Relates R (Module.registerSignal index event))
    (hcounter : Relates R (Module.anonymousVariable (.integer 0)))
    (base : Nat) (pending : List Work) (items : List Statement) :
    Relates R (compileAll index base pending items) := by
  induction base, pending, items using compileAll.induct
    (fun base pending s => Relates R (compile index base pending s)) with
  | case1 base pending c =>
      rw [compile]
      exact hR.relates_pure _
  | case2 base pending items ih =>
      rw [compile]
      exact ih
  | case3 base pending microseconds =>
      rw [compile]
      exact hR.relates_pure _
  | case4 base pending event =>
      rw [compile]
      exact hR.relates_bind (hsignal event) fun _ => hR.relates_pure _
  | case5 base pending state label =>
      rw [compile]
      exact hR.relates_pure _
  | case6 base pending condition yes no ihy ihn =>
      rw [compile]
      refine hR.relates_bind ihy fun y => relates_ite (hR.relates_pure _) ?_
      exact hR.relates_bind (ihn y) fun _ => hR.relates_pure _
  | case7 base pending count body ih =>
      rw [compile]
      refine hR.relates_bind hcounter fun _ => hR.relates_bind ih fun _ => ?_
      exact hR.relates_pure _
  | case8 base pending condition body ih =>
      rw [compile]
      exact hR.relates_bind ih fun _ => hR.relates_pure _
  | case9 base pending start condition next body ih =>
      rw [compile]
      exact hR.relates_bind ih fun _ => hR.relates_pure _
  | case10 base pending header body h =>
      rw [compile]
      exact relates_ite (hR.relates_fail _) (hR.relates_pure _)
  | case11 base pending header body h =>
      rw [compile]
      exact relates_ite (hR.relates_fail _) (hR.relates_pure _)
  | case12 base pending event body h =>
      rw [compile]
      exact relates_ite (hR.relates_fail _) (hR.relates_fail _)
  | case13 base pending event body h =>
      rw [compile]
      exact relates_ite (hR.relates_fail _) (hR.relates_fail _)
  | case14 base pending scrutinee arms =>
      rw [compile]
      exact hR.relates_fail _
  | case15 base pending =>
      rw [compileAll]
      exact hR.relates_pure _
  | case16 base pending s rest ih ihr =>
      rw [compileAll]
      refine hR.relates_bind ih fun f => hR.relates_bind (ihr f) fun _ => ?_
      exact hR.relates_pure _

end Stimulus
