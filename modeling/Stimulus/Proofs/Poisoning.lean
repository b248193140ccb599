import Stimulus.Module.Text
import Stimulus.Proofs.History

/-!
# Poisoned modules

A module whose construction has gone wrong somewhere cannot be emitted. It reports the fault of the
operation that failed first, however long the construction went on after it.

Most operations that enter one thing check all they have to check before they change anything. Such
an operation fails **cleanly**: it leaves the fault and nothing else.

## Main results

* `Module.fault_after_eq`: the fault of a module is the first one of its history.
* `Operation.clean_build`: operations that enter one thing fail cleanly.
* `Module.emit_after`: a module is emitted exactly if no operation has failed.
-/

namespace Stimulus

/-! ### Steps that fail cleanly -/

namespace Build

variable {α β : Type}

/-- A step that leaves nothing but its fault behind if it fails. -/
def Clean (x : Build α) : Prop :=
  ∀ (m m' : Module) (f : Fault), x m = .error f m' → m' = { m with fault := m.fault.or (some f) }

/-- A step that never fails. -/
def Total (x : Build α) : Prop :=
  ∀ m, ∃ a m', x m = .ok a m'

/-- A step that only gives a result never fails. -/
theorem total_pure (a : α) : Total (pure a : Build α) :=
  fun m => ⟨a, m, rfl⟩

/-- A change of the module never fails. -/
theorem total_modify (f : Module → Module) : Total (modify f : Build PUnit) :=
  fun m => ⟨⟨⟩, f m, rfl⟩

/-- A step never fails if none of its parts does. -/
theorem Total.bind {x : Build α} {f : α → Build β} (hx : Total x) (hf : ∀ a, Total (f a)) :
    Total (x >>= f) := by
  intro m
  obtain ⟨a, m₁, h⟩ := hx m
  rw [bind_of_ok h]
  exact hf a m₁

/-- A step that never fails fails cleanly. -/
theorem Total.clean {x : Build α} (hx : Total x) : Clean x := by
  intro m m' f h
  obtain ⟨a, m₁, hok⟩ := hx m
  rw [hok] at h
  cases h

/-- Failing is clean. -/
theorem clean_fail (f : Fault) : Clean (fail f : Build α) := by
  rintro m _ _ ⟨⟩
  rfl

/-- A check is clean. -/
theorem clean_ofExcept (e : Except Fault α) : Clean (ofExcept e) := by
  cases e with
  | ok a => exact (total_pure a).clean
  | error f => exact clean_fail f

/-- A step with two alternatives is clean if both of them are. -/
theorem clean_ite {p : Prop} [Decidable p] {x y : Build α} (hx : Clean x) (hy : Clean y) :
    Clean (if p then x else y) := by
  split
  · exact hx
  · exact hy

/-- Reading the module first and going on with it is clean if going on is. -/
theorem clean_get_bind {f : Module → Build α} (hf : ∀ m, Clean (f m)) :
    Clean (get >>= f) :=
  fun m m' f h => hf m m m' f h

/-- A step is clean if its first part is and the rest never fails. The rest would find a module that
is changed already. -/
theorem Clean.bind {x : Build α} {f : α → Build β} (hx : Clean x) (hf : ∀ a, Total (f a)) :
    Clean (x >>= f) := by
  intro m m' e h
  cases hxm : x m with
  | ok a m₁ =>
      rw [bind_of_ok hxm] at h
      exact absurd h (by obtain ⟨b, m₂, hok⟩ := hf a m₁; rw [hok]; exact nofun)
  | error e₁ m₁ =>
      rw [bind_of_error hxm] at h
      cases h
      exact hx m _ _ hxm

end Build

open Build

/-! ### Operations that fail cleanly -/

namespace Module

/-- Claiming a name is clean. -/
theorem clean_claim (name : String) : Clean (claim name) :=
  clean_get_bind fun _ => (clean_ofExcept _).bind fun _ => total_modify _

/-- Declaring a net is clean. -/
theorem clean_declareNet (name : String) (width : Nat) (direction : Direction) :
    Clean (declareNet name width direction) :=
  clean_ite (clean_fail _) ((clean_claim name).bind fun _ => total_modify _)

/-- Declaring a parameter is clean. -/
theorem clean_parameter {k : Kind} (name : String) (default : Expr k) :
    Clean (parameter name default) :=
  (clean_claim name).bind fun _ => (total_modify _).bind fun _ => total_pure _

/-- Declaring a named variable is clean. -/
theorem clean_namedVariable {k : Kind} (name : String) (initial : Expr k) :
    Clean (namedVariable name initial) :=
  (clean_claim name).bind fun _ => (total_modify _).bind fun _ => total_pure _

/-- The check of a section is clean. -/
theorem clean_checkSection (part : Section) (s : Statement) : Clean (checkSection part s) :=
  clean_ite (clean_fail _) (total_pure _).clean

end Module

/-- The operations that declare one thing under a name of its own or add one statement. -/
def Operation.isSingle : Operation → Bool
  | .net .. => true
  | .bus .. => true
  | .electrical .. => true
  | .parameter .. => true
  | .namedVariable .. => true
  | .addPrologue _ => true
  | .addBody _ => true
  | .addEpilogue _ => true
  | _ => false

/-- **An operation that enters one thing** leaves nothing but its fault behind if it fails. -/
theorem Operation.clean_build {o : Operation} (ho : o.isSingle = true) : Clean o.build := by
  cases o with
  | net name direction =>
      exact ((Module.clean_declareNet name 1 direction).bind fun _ => total_pure _).bind
        fun _ => total_pure _
  | bus name width direction =>
      exact ((Module.clean_declareNet name width direction).bind fun _ => total_pure _).bind
        fun _ => total_pure _
  | electrical name width direction =>
      exact ((Module.clean_declareNet name width direction).bind fun _ => total_pure _).bind
        fun _ => total_pure _
  | parameter name default =>
      exact (Module.clean_parameter name default.expr).bind fun _ => total_pure _
  | namedVariable name initial =>
      exact (Module.clean_namedVariable name initial.expr).bind fun _ => total_pure _
  | addPrologue s => exact (Module.clean_checkSection .prologue s).bind fun _ => total_modify _
  | addBody s => exact (Module.clean_checkSection .body s).bind fun _ => total_modify _
  | addEpilogue s => exact (Module.clean_checkSection .epilogue s).bind fun _ => total_modify _
  | _ => cases ho

/-! ### The faults of a history -/

namespace Module

/-- The faults with which operations of a history fail, in the order in which they do. -/
def faults (m : Module) : List Operation → List Fault
  | [] => []
  | o :: rest =>
    match o.build m with
    | .ok _ m' => m'.faults rest
    | .error f m' => f :: m'.faults rest

/-- The faults of two histories in a row. -/
theorem faults_append (m : Module) (history more : List Operation) :
    m.faults (history ++ more) = m.faults history ++ (m.after history).faults more := by
  induction history generalizing m with
  | nil => rfl
  | cons o rest ih =>
      rw [List.cons_append, faults, faults, after]
      cases o.build m with
      | ok u m' => exact ih m'
      | error f m' => exact congrArg (f :: ·) (ih m')

/-- **The fault of a module** is the one it had before, or else the first one of its history. -/
theorem fault_after_eq (m : Module) (history : List Operation) :
    (m.after history).fault = m.fault.or (m.faults history).head? := by
  induction history generalizing m with
  | nil => exact (Option.or_none).symm
  | cons o rest ih =>
      have ho := o.build_relates tolerates_fault.toComposes (·.build_relates tolerates_fault)
      rw [after, faults]
      cases hx : o.build m with
      | ok u m' =>
          have hfault : m'.fault = m.fault := by rw [ho.ok hx, Option.or_none]
          rw [ih m', hfault]
      | error f m' =>
          have hfault : m'.fault = m.fault.or (some f) := ho.error hx
          rw [ih m', hfault, Option.or_assoc, Option.some_or, List.head?_cons]

/-! ### Emission -/

/-- A module without a fault is emitted. -/
theorem emit?_isSome_iff (m : Module) : (∃ text, m.emit? = .ok text) ↔ m.fault = none := by
  unfold emit?
  cases m.fault with
  | none => simp
  | some f => simp

/-- **No module is emitted in parts.** After any history a module is emitted exactly if none of the
operations has failed. If one has failed, the module reports the fault of the first one that did,
whatever is done afterwards. And an operation that enters one thing leaves the module as it was, up
to the fault, if it fails. -/
theorem emit_after {options : Options} {present name : String} {m₀ : Module}
    (h₀ : Module.new? options present name = .ok m₀) (history : List Operation) :
    ((∃ text, (m₀.after history).emit? = .ok text) ↔ m₀.faults history = []) ∧
      (∀ cause ∈ (m₀.faults history).head?, ∀ more,
        (m₀.after (history ++ more)).emit? = .error (.poisoned name cause)) ∧
      ∀ o : Operation, o.isSingle = true → ∀ f m',
        o.build (m₀.after history) = .error f m' →
          m' = { m₀.after history with fault := (m₀.after history).fault.or (some f) } := by
  have hnew : m₀.fault = none := by rw [eq_of_new? h₀]
  have hname (h : List Operation) : (m₀.after h).name = name := by
    rw [(m₀.header_after h).1, eq_of_new? h₀]
  refine ⟨?_, fun cause hcause more => ?_, fun o ho f m' h => Operation.clean_build ho _ _ _ h⟩
  · rw [emit?_isSome_iff, fault_after_eq, hnew, Option.none_or, List.head?_eq_none_iff]
  · have hfault : (m₀.after (history ++ more)).fault = some cause := by
      rw [fault_after_eq, hnew, Option.none_or, faults_append, List.head?_append,
        Option.mem_def.mp hcause, Option.some_or]
    rw [emit?, hfault]
    dsimp only
    rw [hname]

/-- A net whose name is taken, and a parameter that comes too late to mend it. -/
theorem emit_after_duplicate :
    ∃ m₀, Module.new? .standard "" "dut" = .ok m₀ ∧
      (m₀.after [.net "a" .input, .net "a" .output, .parameter "1b" ⟨_, .integer 3⟩]).emit?
        = .error (.poisoned "dut" (.badName "a" .taken)) := by
  obtain ⟨m₀, h₀⟩ : ∃ m₀, Module.new? .standard "" "dut" = .ok m₀ := ⟨_, rfl⟩
  have hfaults : m₀.faults [.net "a" .input, .net "a" .output] = [.badName "a" .taken] := by
    rw [eq_of_new? h₀]
    decide +kernel
  refine ⟨m₀, h₀, (emit_after h₀ [.net "a" .input, .net "a" .output]).2.1 _ ?_
    [.parameter "1b" ⟨_, .integer 3⟩]⟩
  rw [hfaults]
  rfl

end Module

end Stimulus
