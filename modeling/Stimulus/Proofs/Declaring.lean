import Stimulus.Proofs.Build
import Stimulus.Proofs.Name

/-!
# Declarations and commands that succeed

What the declaration of a net, a parameter or a variable changes in a module, and what the addition
of a statement to a section does, given that the step succeeds.

## Main results

* `Module.claim_ok`: the name was free before.
* `Module.anonymousVariable_ok`, `Module.namedVariable_ok`: declared variables.
* `Module.addPrologue_ok`, `Module.addBody_ok`, `Module.addEpilogue_ok`: statements without script
  steps.
-/

namespace Stimulus

/-- The assignment that gives a variable its initial value. -/
def VariableDeclaration.assignment (v : VariableDeclaration) : Command :=
  .assign v.name v.initial

/-- The assignments of initial values are those of the variables, in the order of the variables. -/
def Module.Initialised (m : Module) : Prop :=
  m.initialisation = m.declaredVariables.map (·.assignment)

/-- A module with one more variable, whose name has entered the namespace. -/
def Module.withVariable (m : Module) (names : Namespace) (v : VariableDeclaration) : Module :=
  { m with
    names
    declaredVariables := m.declaredVariables ++ [v]
    initialisation := m.initialisation ++ [v.assignment] }

namespace Module

open Build

variable {m m' : Module} {u : Unit}

/-! ### Names -/

/-- A name that is claimed is an identifier that was free before and is taken afterwards. -/
theorem claim_ok {name : String} (h : claim name m = .ok u m') :
    Name.isIdentifier name = true ∧ name ∉ m.names.taken ∧ m'.names.taken = name :: m.names.taken ∧
      ∃ names, m' = { m with names } := by
  unfold claim at h
  obtain ⟨_, _, hg, h⟩ := bind_ok.mp h
  obtain ⟨rfl, rfl⟩ := get_ok.mp hg
  obtain ⟨names, _, he, h⟩ := bind_ok.mp h
  obtain ⟨hnames, rfl⟩ := ofExcept_ok.mp he
  obtain rfl := modify_ok.mp h
  obtain ⟨hident, -, hfree, rfl⟩ := Namespace.of_claim_ok hnames
  exact ⟨hident, hfree, rfl, _, rfl⟩

/-! ### Declarations -/

/-- A net that is declared takes its name, which is an identifier. -/
theorem declareNet_ok {name : String} {width : Nat} {direction : Direction}
    (h : declareNet name width direction m = .ok u m') :
    Name.isIdentifier name = true ∧ m'.names.taken = name :: m.names.taken ∧
      ∃ names, m' = { m with names, nets := m.nets ++ [⟨name, width, direction⟩] } := by
  unfold declareNet at h
  split at h
  · exact (fail_ok.mp h).elim
  · obtain ⟨_, m₁, hclaim, h⟩ := bind_ok.mp h
    obtain rfl := modify_ok.mp h
    obtain ⟨hident, -, htaken, names, rfl⟩ := claim_ok hclaim
    exact ⟨hident, htaken, names, rfl⟩

/-- A parameter that is declared takes its name, which is an identifier. -/
theorem parameter_ok {k : Kind} {name : String} {default : Expr k} {e : Expr k}
    (h : parameter name default m = .ok e m') :
    Name.isIdentifier name = true ∧ m'.names.taken = name :: m.names.taken ∧
      ∃ names, m' = { m with names, parameters := m.parameters ++ [⟨name, ⟨k, default⟩⟩] } := by
  unfold parameter at h
  obtain ⟨_, m₁, hclaim, h⟩ := bind_ok.mp h
  obtain ⟨_, _, hm, h⟩ := bind_ok.mp h
  obtain rfl := modify_ok.mp hm
  obtain ⟨rfl, rfl⟩ := pure_ok.mp h
  obtain ⟨hident, -, htaken, names, rfl⟩ := claim_ok hclaim
  exact ⟨hident, htaken, names, rfl⟩

/-- A variable that is entered is the last one. -/
theorem declareVariable_ok {k : Kind} {name : String} {initial : Expr k} {v : Variable k}
    (h : declareVariable name initial m = .ok v m') :
    v = ⟨name⟩ ∧ m' = { m with
      declaredVariables := m.declaredVariables ++ [⟨name, ⟨k, initial⟩⟩]
      initialisation := m.initialisation ++ [.assign name ⟨k, initial⟩] } := by
  unfold declareVariable at h
  obtain ⟨_, _, hm, h⟩ := bind_ok.mp h
  obtain rfl := modify_ok.mp hm
  obtain ⟨rfl, rfl⟩ := pure_ok.mp h
  exact ⟨rfl, rfl⟩

/-- An anonymous variable is always declared, under the next numbered name. -/
theorem anonymousVariable_eq {k : Kind} (initial : Expr k) (m : Module) :
    anonymousVariable initial m = .ok ⟨m.names.fresh.1⟩
      (m.withVariable m.names.fresh.2 ⟨m.names.fresh.1, ⟨k, initial⟩⟩) :=
  rfl

/-- An anonymous variable has a numbered name that was free before, and takes it. -/
theorem anonymousVariable_ok {k : Kind} {initial : Expr k} {v : Variable k}
    (h : anonymousVariable initial m = .ok v m') :
    (∃ n, v.name = Name.anonymous n) ∧ v.name ∉ m.names.taken ∧
      m'.names.taken = v.name :: m.names.taken ∧
      ∃ names, m' = { m with
        names
        declaredVariables := m.declaredVariables ++ [⟨v.name, ⟨k, initial⟩⟩]
        initialisation := m.initialisation ++ [.assign v.name ⟨k, initial⟩] } := by
  rw [anonymousVariable_eq] at h
  obtain ⟨rfl, rfl⟩ := EStateM.Result.ok.inj h
  exact ⟨⟨_, rfl⟩, m.names.fresh_notMem, m.names.fresh_taken, m.names.fresh.2, rfl⟩

/-- A named variable had a free name, which is an identifier, and takes it. -/
theorem namedVariable_ok {k : Kind} {name : String} {initial : Expr k} {v : Variable k}
    (h : namedVariable name initial m = .ok v m') :
    Name.isIdentifier name = true ∧ name ∉ m.names.taken ∧ m'.names.taken = name :: m.names.taken ∧
      ∃ names, m' = { m with
        names
        declaredVariables := m.declaredVariables ++ [⟨name, ⟨k, initial⟩⟩]
        initialisation := m.initialisation ++ [.assign name ⟨k, initial⟩] } := by
  unfold namedVariable at h
  obtain ⟨_, m₁, hclaim, h⟩ := bind_ok.mp h
  obtain ⟨hident, hfree, htaken, names, rfl⟩ := claim_ok hclaim
  obtain ⟨rfl, rfl⟩ := declareVariable_ok h
  exact ⟨hident, hfree, htaken, names, rfl⟩

/-- A named variable can be declared if its name is accepted and free, and then takes it. -/
theorem namedVariable_of_free {k : Kind} {name : String} (initial : Expr k)
    (hcheck : Name.check name = .ok ()) (hfree : name ∉ m.names.taken) :
    ∃ v m', namedVariable name initial m = .ok v m' ∧ m'.names.taken = name :: m.names.taken := by
  have hclaim : claim name m
      = .ok () { m with names := { m.names with taken := name :: m.names.taken } } := by
    rw [claim, bind_of_ok (get_ok.mpr ⟨rfl, rfl⟩), Namespace.claim_of_free hcheck hfree]
    rfl
  obtain ⟨v, m', h⟩ : ∃ v m', namedVariable name initial m = .ok v m' :=
    ⟨_, _, by rw [namedVariable, bind_of_ok hclaim]; rfl⟩
  exact ⟨v, m', h, (namedVariable_ok h).2.2.1⟩

/-! ### Commands -/

/-- A statement that passes the check of its section has no script step. -/
theorem checkSection_ok {part : Section} {s : Statement} (h : checkSection part s m = .ok u m') :
    s.hasScriptStep = false ∧ m' = m := by
  unfold checkSection at h
  split at h
  · exact (fail_ok.mp h).elim
  case isFalse hs =>
      obtain ⟨-, rfl⟩ := pure_ok.mp h
      exact ⟨by simpa using hs, rfl⟩

/-- A statement that is added to the prologue has no script step. -/
theorem addPrologue_ok {s : Statement} (h : addPrologue s m = .ok u m') :
    s.hasScriptStep = false ∧ m' = { m with prologue := m.prologue ++ [.statement s] } := by
  unfold addPrologue at h
  obtain ⟨_, m₁, hcheck, h⟩ := bind_ok.mp h
  obtain rfl := modify_ok.mp h
  obtain ⟨hs, rfl⟩ := checkSection_ok hcheck
  exact ⟨hs, rfl⟩

/-- A statement that is added to the body has no script step. -/
theorem addBody_ok {s : Statement} (h : addBody s m = .ok u m') :
    s.hasScriptStep = false ∧ m' = { m with body := m.body ++ [s] } := by
  unfold addBody at h
  obtain ⟨_, m₁, hcheck, h⟩ := bind_ok.mp h
  obtain rfl := modify_ok.mp h
  obtain ⟨hs, rfl⟩ := checkSection_ok hcheck
  exact ⟨hs, rfl⟩

/-- A statement without script steps can be added to the body. -/
theorem addBody_of_stepless {s : Statement} (h : s.hasScriptStep = false) (m : Module) :
    addBody s m = .ok () { m with body := m.body ++ [s] } := by
  rw [addBody, checkSection, h]
  rfl

/-- A statement that is added to the epilogue has no script step. -/
theorem addEpilogue_ok {s : Statement} (h : addEpilogue s m = .ok u m') :
    s.hasScriptStep = false ∧ m' = { m with epilogue := m.epilogue ++ [s] } := by
  unfold addEpilogue at h
  obtain ⟨_, m₁, hcheck, h⟩ := bind_ok.mp h
  obtain rfl := modify_ok.mp h
  obtain ⟨hs, rfl⟩ := checkSection_ok hcheck
  exact ⟨hs, rfl⟩

end Module

end Stimulus
