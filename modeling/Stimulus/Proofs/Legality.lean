import Stimulus.Proofs.Devices
import Stimulus.Proofs.Statement.Checked

/-!
# Legal sections

Waits and marks make sense in the script of a sequence only, and an event block must stand on top.
No section of a module ever holds a statement that breaks these rules.

Three checks work together. The constructors of statements keep event blocks from being governed
by anything, the check of a section keeps steps out, and what the compiler of sequences makes of a
script goes through both. So the script of a sequence may be anything.

## Main results

* `Statement.WellPlaced.legal`: which statements a section may hold.
* `Module.legal_after`: no history, whatever fails in it, makes a section hold other statements.
-/

namespace Stimulus

open Build

/-! ### Legal statements -/

/-- A statement is **legal** in a section if it holds no step of a script at any depth, and if
its event blocks stand on top: nothing but lists is above them. -/
structure Statement.Legal (s : Statement) : Prop where
  stepless : ∀ t : Statement, t.Within s → t.isScriptStep = false
  on_top : ∀ u : Statement, u.Within s → u.isList = false →
    ∀ c ∈ u.children, ∀ t : Statement, t.Within c → t.isEventBlock = false

namespace Statement

/-- A well-placed statement without steps is legal. -/
theorem WellPlaced.legal {s : Statement} (h : s.WellPlaced) (hs : s.hasScriptStep = false) :
    s.Legal where
  stepless := anyNode_eq_false.mp hs
  on_top u hu hlist c hc := anyNode_eq_false.mp (h u hu hlist c hc).1

/-- A statement without steps is legal if there is no event block below its root. -/
theorem legal_of_children {s : Statement} (hs : s.hasScriptStep = false)
    (hc : ∀ c ∈ s.children, c.hasEventBlock = false) : s.Legal where
  stepless := anyNode_eq_false.mp hs
  on_top u hu _ d hd t ht := by
    rcases within_iff.mp hu with rfl | ⟨c, hmem, huc⟩
    · exact anyNode_eq_false.mp (hc d hd) t ht
    · exact anyNode_eq_false.mp (hc c hmem) t (ht.trans (Within.of_child hd (.refl d) |>.trans huc))

/-- Commands are legal. -/
theorem legal_command (c : Command) : (Statement.command c).Legal :=
  legal_of_children rfl fun _ hc => absurd hc List.not_mem_nil

/-- The block that drives a sequence is legal. -/
theorem legal_driver (event : Event) (control : SequenceControl) (number : Nat) :
    (Statement.block (.onEvent event) [control.resumeOn number]).Legal :=
  legal_of_children rfl (List.forall_mem_singleton.mpr rfl)

/-- What runs a sequence is a checked conditional, so it is legal if it has no steps. -/
theorem legal_conditional {condition : Expr .bool} {items : List Statement} {c : Conditional}
    (h : Conditional.new? condition items = .ok c) (hs : c.statement.hasScriptStep = false) :
    c.statement.Legal := by
  obtain ⟨rfl, hc⟩ := governable_of_childrenOf h
  refine legal_of_children hs fun t ht => (hc t ?_).1
  exact (List.append_nil (leavesOf items)) ▸ ht

end Statement

/-- A statement that resumes a sequence holds neither steps of a script nor event blocks. -/
theorem SequenceControl.legal_resumeOn (c : SequenceControl) (number : Nat) :
    ∀ t : Statement, t.Within (c.resumeOn number) →
      t.isScriptStep = false ∧ t.isEventBlock = false :=
  fun t ht => ⟨Statement.anyNode_eq_false.mp rfl t ht, Statement.anyNode_eq_false.mp rfl t ht⟩

/-! ### Legal modules -/

namespace Module

/-- A module is legal if the statements of its sections are, and if the shared blocks of its
prologue govern neither steps of a script nor event blocks. -/
structure Legal (m : Module) : Prop where
  sections : ∀ s ∈ prologueStatements m.prologue ++ m.body ++ m.epilogue, s.Legal
  clauses : ∀ b ∈ sharedEvents m.prologue, ∀ s ∈ b.clauses, ∀ t : Statement, t.Within s →
    t.isScriptStep = false ∧ t.isEventBlock = false

/-- A module is legal if the statements of its sections and those of its shared blocks are. -/
theorem Legal.of_sections {m : Module} (hprologue : ∀ s ∈ prologueStatements m.prologue, s.Legal)
    (hbody : ∀ s ∈ m.body, s.Legal) (hepilogue : ∀ s ∈ m.epilogue, s.Legal)
    (hclauses : ∀ b ∈ sharedEvents m.prologue, ∀ s ∈ b.clauses, ∀ t : Statement, t.Within s →
      t.isScriptStep = false ∧ t.isEventBlock = false) : m.Legal where
  sections := by
    rw [List.forall_mem_append, List.forall_mem_append]
    exact ⟨⟨hprologue, hbody⟩, hepilogue⟩
  clauses := hclauses

/-- The sections of a legal module, one by one. -/
theorem Legal.parts {m : Module} (h : m.Legal) :
    (∀ s ∈ prologueStatements m.prologue, s.Legal) ∧ (∀ s ∈ m.body, s.Legal) ∧
      ∀ s ∈ m.epilogue, s.Legal := by
  have := h.sections
  rw [List.forall_mem_append, List.forall_mem_append] at this
  exact ⟨this.1.1, this.1.2, this.2⟩

end Module

/-- Registrations of legal statements keep a module legal. -/
theorem admits_legal : Admits (fun _ => Statement.Legal) fun m _ m' => m.Legal → m'.Legal where
  refl _ h := h
  trans h h' hm := h' (h hm)
  fail _ _ hm := ⟨hm.sections, hm.clauses⟩
  net _ _ _ _ _ hm := ⟨hm.sections, hm.clauses⟩
  parameter _ _ _ _ hm := ⟨hm.sections, hm.clauses⟩
  «variable» _ _ _ _ hm := ⟨hm.sections, hm.clauses⟩
  «prologue» m s hs hm := by
    obtain ⟨hprologue, hbody, hepilogue⟩ := hm.parts
    refine .of_sections ?_ hbody hepilogue ?_
    · rw [prologueStatements_append, List.forall_mem_append]
      exact ⟨hprologue, List.forall_mem_singleton.mpr hs⟩
    · rw [sharedEvents_append, sharedEvents_statement, List.append_nil]
      exact hm.clauses
  signal m index event hm := by
    obtain ⟨hprologue, hbody, hepilogue⟩ := hm.parts
    refine .of_sections ?_ hbody hepilogue ?_
    · rwa [prologueStatements_registered]
    · exact forall_clauses_registered (SequenceControl.legal_resumeOn ⟨index⟩) hm.clauses event
  body m s hs hm := by
    obtain ⟨hprologue, hbody, hepilogue⟩ := hm.parts
    refine .of_sections hprologue ?_ hepilogue hm.clauses
    rw [List.forall_mem_append]
    exact ⟨hbody, List.forall_mem_singleton.mpr hs⟩
  epilogue m s hs hm := by
    obtain ⟨hprologue, hbody, hepilogue⟩ := hm.parts
    refine .of_sections hprologue hbody ?_ hm.clauses
    rw [List.forall_mem_append]
    exact ⟨hepilogue, List.forall_mem_singleton.mpr hs⟩
  sequences _ _ hm := ⟨hm.sections, hm.clauses⟩
  markers _ _ hm := ⟨hm.sections, hm.clauses⟩
  driver control tolerance := Statement.legal_driver _ control 0
  runner := Statement.legal_conditional

/-! ### Legal histories -/

/-- What serves a device is legal. -/
theorem Registration.Serves.legal {nets : List Net} {r : Registration} (h : r.Serves nets) :
    ∀ p ∈ r.placed, p.2.Legal := by
  cases h with
  | declaration h =>
      rw [h]
      exact List.forall_mem_nil _
  | contribution _ => exact List.forall_mem_singleton.mpr (Statement.legal_command _)
  | @tick event items h =>
      refine List.forall_mem_singleton.mpr (Statement.legal_of_children ?_ fun c hc => (h c hc).2)
      exact anyNodeOf_eq_false.mpr fun c hc => (h c hc).1

namespace Module

/-- **Only legal statements reach the sections of a module.** Whatever a history does and however
much of it fails, the statements in the prologue, the body and the epilogue are legal afterwards,
and so are the clauses of the shared blocks, as long as the statements that were handed over to the
sections were put together by checked constructors and by lists. The scripts of the sequences may
be anything. -/
theorem legal_after {options : Options} {present name : String} {m₀ : Module}
    (h₀ : Module.new? options present name = .ok m₀) {history : List Operation}
    (hchecked : ∀ o ∈ history, ∀ p ∈ o.placed, p.2.Checked) : (m₀.after history).Legal := by
  have hnew : m₀.Legal := by
    rw [eq_of_new? h₀]
    exact .of_sections (List.forall_mem_nil _) (List.forall_mem_nil _) (List.forall_mem_nil _)
      (List.forall_mem_nil _)
  refine after_keeps_of hnew fun o ho => ?_
  refine Operation.build_relates_of admits_legal.toComposes fun d r hr => ?_
  refine r.build_relates_of admits_legal fun p hp hsteps => ?_
  rcases o.serves d r hr with hplaced | hserves
  · rw [hplaced] at hp
    exact (hchecked o ho p hp).wellPlaced.legal hsteps
  · exact hserves.legal p hp

/-- A wait is refused by the body, and a sequence is refused for a case in it, but its driver stays.
A sequence with a wait in a loop is accepted, and an event block in a list in a list is too. -/
theorem legal_after_refused :
    let tick : Statement := .command (.toggle "tick")
    let block : Statement := .block (.onEvent (.initialStep [])) [tick]
    let history : List Operation :=
      [.addBody (.list [.wait (.real 1.0)]),
        .sequence (.bool true) [.block (.whileLoop (.ident "on")) [tick, .wait (.real 1.0)]],
        .sequence (.bool true) [.select ⟨.integer, .ident "n"⟩ []],
        .addPrologue (.list [tick, .list [block]])]
    ∃ m₀, Module.new? .standard "" "bench" = .ok m₀ ∧
      (∀ o ∈ history, ∀ p ∈ o.placed, p.2.Checked) ∧ (m₀.after history).Legal ∧
      (m₀.after history).prologue.length = 3 ∧ (m₀.after history).body.length = 1 := by
  intro tick block history
  obtain ⟨m₀, h₀⟩ : ∃ m₀, Module.new? .standard "" "bench" = .ok m₀ := ⟨_, rfl⟩
  have hblock : block.Checked :=
    .onEvent (List.forall_mem_singleton.mpr (.command _)) rfl
  have hchecked : ∀ o ∈ history, ∀ p ∈ o.placed, p.2.Checked := by
    simp only [history, List.forall_mem_cons, Operation.placed]
    refine ⟨⟨.list ?_, List.forall_mem_nil _⟩, List.forall_mem_nil _, List.forall_mem_nil _,
      ⟨.list ?_, List.forall_mem_nil _⟩, List.forall_mem_nil _⟩
    · exact List.forall_mem_singleton.mpr (.step _)
    · rw [List.forall_mem_cons, List.forall_mem_singleton]
      exact ⟨.command _, .list (List.forall_mem_singleton.mpr hblock)⟩
  refine ⟨m₀, h₀, hchecked, legal_after h₀ hchecked, ?_, ?_⟩
  · rw [eq_of_new? h₀]
    decide +kernel
  · rw [eq_of_new? h₀]
    decide +kernel

end Module

end Stimulus
