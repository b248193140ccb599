import Stimulus.Proofs.Run.Code

/-!
# Statements run in one go

The blocks of devices and the statements that switch them are run from their beginning to their
end, with nothing in between. `Meaning.Runs` says what comes of it: the statements that are
performed, in order, and the store behind them. It is what the machine of `Code.step` does with
these statements.

## Main results

* `Meaning.Runs.steps`: a run in one go is a run of the machine.
* `Meaning.runs_perform_iff`, `Meaning.runs_expand_iff`: runs of a list by its first statement.
* `Meaning.Lawful.runs_assignments_iff`, `Meaning.exists_assigned`: assignments to reals in a row.
-/

namespace Stimulus

open Machine

namespace Meaning

variable {R : Type} (M : Meaning R)

/-- Statements **run** from a store to another one, and perform statements on the way. -/
inductive Runs : List Statement → Store R → List Statement → Store R → Prop
  | nil (st : Store R) : Runs [] st [] st
  | expand {s : Statement} {rest items done : List Statement} {st st' : Store R}
      (hs : M.expand st s = some items) (hrest : Runs (items ++ rest) st done st') :
      Runs (s :: rest) st done st'
  | perform {s : Statement} {rest done : List Statement} {st st' st'' : Store R}
      (hs : M.expand st s = none) (hst : M.perform s st = some st')
      (hrest : Runs rest st' done st'') : Runs (s :: rest) st (s :: done) st''

variable {M} {s : Statement} {items rest done : List Statement} {st st' : Store R}

/-- A run in one go is a run of the machine, whatever else this has to do. -/
theorem Runs.steps (h : M.Runs items st done st') (p : Code) (index : Nat)
    (stack : List Code.Item) (firings : List (Firing R)) :
    ∃ n, Steps (Code.step M p) n ⟨st, items.map (.run index) ++ stack, firings⟩
      (done.map (.performed index)) ⟨st', stack, firings⟩ := by
  induction h with
  | nil st => exact ⟨0, .refl _⟩
  | @expand s rest items done st st' hs _ ih =>
      obtain ⟨n, ih⟩ := ih
      rw [List.map_append, List.append_assoc] at ih
      exact ⟨n + 1, .head (Code.step_expand hs) ih⟩
  | @perform s rest done st st' st'' hs hst _ ih =>
      obtain ⟨n, ih⟩ := ih
      exact ⟨n + 1, .head (Code.step_perform hs hst) ih⟩

/-- Nothing does nothing. -/
@[simp] theorem runs_nil_iff : M.Runs [] st done st' ↔ done = [] ∧ st' = st := by
  constructor
  · rintro ⟨⟩
    exact ⟨rfl, rfl⟩
  · rintro ⟨rfl, rfl⟩
    exact .nil _

/-- A statement that governs others gives way to them. -/
theorem runs_expand_iff (hs : M.expand st s = some items) :
    M.Runs (s :: rest) st done st' ↔ M.Runs (items ++ rest) st done st' := by
  constructor
  · intro h
    cases h with
    | expand hs' hrest =>
        obtain rfl := Option.some.inj (hs.symm.trans hs')
        exact hrest
    | perform hs' => cases hs.symm.trans hs'
  · exact .expand hs

/-- A plain statement is performed. -/
theorem runs_perform_iff {su : Store R} (hs : M.expand st s = none)
    (hst : M.perform s st = some su) :
    M.Runs (s :: rest) st done st' ↔ ∃ more, done = s :: more ∧ M.Runs rest su more st' := by
  constructor
  · intro h
    cases h with
    | expand hs' => cases hs.symm.trans hs'
    | perform _ hst' hrest =>
        obtain rfl := Option.some.inj (hst.symm.trans hst')
        exact ⟨_, rfl, hrest⟩
  · rintro ⟨more, rfl, h⟩
    exact .perform hs hst h

/-- An assignment sets its variable. -/
theorem Lawful.runs_assign_iff (hM : M.Lawful) {x : String} {v : Value} :
    M.Runs (.command (.assign x v) :: rest) st done st' ↔
      ∃ more, done = .command (.assign x v) :: more ∧
        M.Runs rest (st.set x (M.value v st)) more st' :=
  runs_perform_iff rfl (hM.assign x v st)

/-! ### Assignments in a row -/

/-- The store after some reals have been assigned, one after the other. -/
def assigned (M : Meaning R) : List (Variable .real × Expr .real) → Store R → Store R
  | [], st => st
  | (x, e) :: rest, st => M.assigned rest (st.set x.name (.real (M.real e st)))

/-- A list of assignments assigns one after the other. -/
theorem Lawful.runs_assignments_iff (hM : M.Lawful) (as : List (Variable .real × Expr .real)) :
    M.Runs [.ofCommands (as.map fun a => a.1.assign a.2)] st done st' ↔
      done = as.map (fun a => .command (a.1.assign a.2)) ∧ st' = M.assigned as st := by
  have hlist : M.expand st (.ofCommands (as.map fun a => a.1.assign a.2))
      = some (as.map fun a => .command (a.1.assign a.2)) := by
    rw [Statement.ofCommands, List.map_map]
    rfl
  rw [runs_expand_iff hlist, List.append_nil]
  clear hlist
  induction as generalizing st done with
  | nil => exact runs_nil_iff
  | cons a as ih =>
      obtain ⟨x, e⟩ := a
      rw [List.map_cons, Variable.assign, hM.runs_assign_iff]
      simp only [ih, assigned]
      constructor
      · rintro ⟨_, rfl, rfl, rfl⟩
        exact ⟨rfl, rfl⟩
      · rintro ⟨rfl, rfl⟩
        exact ⟨_, rfl, rfl, rfl⟩

/-- What is not assigned keeps its value. -/
theorem assigned_of_notMem {as : List (Variable .real × Expr .real)} {x : String}
    (hx : x ∉ as.map (·.1.name)) : M.assigned as st x = st x := by
  induction as generalizing st with
  | nil => rfl
  | cons a as ih =>
      rw [List.map_cons, List.mem_cons, not_or] at hx
      rw [assigned, ih hx.2, st.set_of_ne _ hx.1]

/-- **What is assigned once** gets the value of its expression in a store that differs from the
first one only in what is assigned as well. -/
theorem exists_assigned {as : List (Variable .real × Expr .real)}
    (hnodup : (as.map (·.1.name)).Nodup) {x : Variable .real} {e : Expr .real} (h : (x, e) ∈ as) :
    ∃ su, Store.AgreeOff (as.map (·.1.name)) su st ∧
      M.assigned as st x.name = .real (M.real e su) := by
  induction as generalizing st with
  | nil => exact absurd h List.not_mem_nil
  | cons a as ih =>
      rw [List.map_cons, List.nodup_cons] at hnodup
      rcases List.mem_cons.mp h with rfl | hlater
      · refine ⟨st, fun _ _ => rfl, ?_⟩
        rw [assigned, assigned_of_notMem hnodup.1, Store.set_self]
      · obtain ⟨y, f⟩ := a
        obtain ⟨su, hagree, hvalue⟩ : ∃ su,
            Store.AgreeOff (as.map (·.1.name)) su (st.set y.name (.real (M.real f st))) ∧
              M.assigned ((y, f) :: as) st x.name = .real (M.real e su) := ih hnodup.2 hlater
        refine ⟨su, fun z hz => ?_, hvalue⟩
        rw [List.map_cons, List.mem_cons, not_or] at hz
        rw [hagree z hz.2, st.set_of_ne _ hz.1]

end Meaning

end Stimulus
