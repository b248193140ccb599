import Stimulus.Proofs.Build
import Stimulus.Proofs.Statement.Tree

/-!
# What the checked constructors make

The constructors of statements look into the statements they are given. What they let through is
**governable**: it holds no event block and, below a head that takes no steps of a script, no such
step. So in a statement that was put together by checked constructors and lists, every node is
above governable statements only, lists excepted, which govern nothing.

## Main results

* `childrenOf_ok`: which children pass the check.
* `Statement.Checked.wellPlaced`: what checked constructors and lists make is well placed.
-/

namespace Stimulus

open Build

/-! ### The check of children -/

/-- A statement that may be governed: it holds no event block and, unless these are allowed, no
step of a script. -/
def Statement.Governable (steps : Bool) (s : Statement) : Prop :=
  s.hasEventBlock = false ∧ (steps = false → s.hasScriptStep = false)

/-- The check of children passes exactly if all of them are governable. -/
theorem checkChildren_ok (owner : Owner) {steps : Bool} {children : List Statement} :
    checkChildren owner steps children = .ok () ↔ ∀ c ∈ children, c.Governable steps := by
  induction children with
  | nil => simp [checkChildren]
  | cons c rest ih =>
      rw [checkChildren, List.forall_mem_cons, ← ih]
      unfold Statement.Governable
      cases steps <;> cases c.hasEventBlock <;> cases c.hasScriptStep <;> simp

/-- Children pass their check exactly if their leaves are governable, and then they are spliced. -/
theorem childrenOf_ok {owner : Owner} {steps : Bool} {items children : List Statement} :
    childrenOf owner steps items = .ok children
      ↔ children = leavesOf items ∧ ∀ c ∈ leavesOf items, c.Governable steps := by
  rw [childrenOf, ← checkChildren_ok owner, check_bind_ok]
  constructor
  · rintro ⟨⟨⟩, hcheck, h⟩
    exact ⟨(Except.ok.inj h).symm, hcheck⟩
  · rintro ⟨rfl, hcheck⟩
    exact ⟨(), hcheck, rfl⟩

/-- What is made of children that pass their check is made of the spliced ones, which are
governable. -/
theorem governable_of_childrenOf {β : Type} {owner : Owner} {steps : Bool}
    {items : List Statement} {f : List Statement → β} {b : β}
    (h : (do return f (← childrenOf owner steps items)) = (.ok b : Except Fault β)) :
    b = f (leavesOf items) ∧ ∀ c ∈ leavesOf items, c.Governable steps := by
  obtain ⟨children, hc, h⟩ := check_bind_ok.mp h
  obtain ⟨rfl, hgovernable⟩ := childrenOf_ok.mp hc
  exact ⟨(Except.ok.inj h).symm, hgovernable⟩

/-- What is made of children that pass their check is made of the spliced ones. -/
theorem of_childrenOf {β : Type} {owner : Owner} {steps : Bool} {items : List Statement}
    {f : List Statement → β} {b : β}
    (h : (do return f (← childrenOf owner steps items)) = (.ok b : Except Fault β)) :
    b = f (leavesOf items) :=
  (governable_of_childrenOf h).1

/-- Governable leaves can be made use of. -/
theorem childrenOf_bind {β : Type} {owner : Owner} {steps : Bool} {items : List Statement}
    {f : List Statement → β} (h : ∀ c ∈ leavesOf items, c.Governable steps) :
    (do return f (← childrenOf owner steps items)) = (.ok (f (leavesOf items)) : Except Fault β) :=
  check_bind_ok.mpr ⟨_, childrenOf_ok.mpr ⟨rfl, h⟩, rfl⟩

/-! ### Accepted statements, written out -/

/-- A loop that is accepted, written out. -/
theorem Statement.while?_ok {condition : Expr .bool} {items : List Statement} {s : Statement}
    (h : Statement.while? condition items = .ok s) :
    s = .block (.whileLoop condition) (leavesOf items) :=
  of_childrenOf h

/-- A conditional that is accepted, written out. -/
theorem Conditional.new?_ok {condition : Expr .bool} {items : List Statement} {c : Conditional}
    (h : Conditional.new? condition items = .ok c) : c = ⟨condition, leavesOf items, []⟩ :=
  of_childrenOf h

/-- The children of an arm that is accepted are governable. -/
theorem CaseTable.governable_of_arm? {c c' : CaseTable} {label : Value} {items : List Statement}
    (h : c.arm? label items = .ok c') :
    c' = { c with arms := c.arms ++ [.mk (some label) (leavesOf items)] } ∧
      ∀ t ∈ leavesOf items, t.Governable false := by
  unfold arm? at h
  split at h
  · cases h
  · exact governable_of_childrenOf h

/-- The children of an arm for all other values that is accepted are governable. -/
theorem CaseTable.governable_of_defaultArm? {c c' : CaseTable} {items : List Statement}
    (h : c.defaultArm? items = .ok c') :
    c' = { c with arms := c.arms ++ [.mk none (leavesOf items)] } ∧
      ∀ t ∈ leavesOf items, t.Governable false := by
  unfold defaultArm? at h
  split at h
  · cases h
  · exact governable_of_childrenOf h

/-- An arm that is accepted comes last, with its children spliced. -/
theorem CaseTable.arm?_ok {c c' : CaseTable} {label : Value} {items : List Statement}
    (h : c.arm? label items = .ok c') :
    c' = { c with arms := c.arms ++ [.mk (some label) (leavesOf items)] } :=
  (governable_of_arm? h).1

/-- An arm for all other values that is accepted comes last, with its children spliced. -/
theorem CaseTable.defaultArm?_ok {c c' : CaseTable} {items : List Statement}
    (h : c.defaultArm? items = .ok c') :
    c' = { c with arms := c.arms ++ [.mk none (leavesOf items)] } :=
  (governable_of_defaultArm? h).1

namespace Statement

/-! ### Well-placed statements -/

/-- Whether steps of a script may stand below a statement. -/
def takesSteps : Statement → Bool
  | .block (.raw _) _ => false
  | .block (.onEvent _) _ => false
  | .select .. => false
  | _ => true

/-- In a **well-placed** statement, what a node governs is governable. A list governs nothing. -/
def WellPlaced (s : Statement) : Prop :=
  ∀ u : Statement, u.Within s → u.isList = false → ∀ c ∈ u.children, c.Governable u.takesSteps

/-- A statement is well placed if its children are and if it may govern them. -/
theorem wellPlaced_iff {s : Statement} :
    s.WellPlaced
      ↔ ∀ c ∈ s.children, c.WellPlaced ∧ (s.isList = false → c.Governable s.takesSteps) := by
  constructor
  · intro h c hc
    exact ⟨fun u hu => h u (hu.of_child hc), fun hlist => h s (.refl s) hlist c hc⟩
  · intro h u hu hlist c hc
    rcases within_iff.mp hu with rfl | ⟨d, hd, hu⟩
    · exact (h c hc).2 hlist
    · exact (h d hd).1 u hu hlist c hc

/-- Nodes of well-placed statements are well placed. -/
theorem WellPlaced.within {s t : Statement} (h : s.WellPlaced) (ht : t.Within s) :
    t.WellPlaced :=
  fun u hu => h u (hu.trans ht)

/-- Leaves of well-placed statements are well placed. -/
theorem wellPlaced_leavesOf {items : List Statement} (h : ∀ s ∈ items, s.WellPlaced) :
    ∀ t ∈ leavesOf items, t.WellPlaced := by
  intro t ht
  obtain ⟨-, s, hs, hwithin⟩ := within_of_mem_leavesOf ht
  exact (h s hs).within hwithin

/-- A statement is well placed if it governs well-placed leaves that it may govern. -/
theorem wellPlaced_of_leaves {s : Statement} {items : List Statement}
    (hchildren : s.children = leavesOf items) (h : ∀ t ∈ items, t.WellPlaced)
    (hgovernable : ∀ c ∈ leavesOf items, c.Governable s.takesSteps) : s.WellPlaced := by
  refine wellPlaced_iff.mpr fun c hc => ?_
  rw [hchildren] at hc
  exact ⟨wellPlaced_leavesOf h c hc, fun _ => hgovernable c hc⟩

/-- A statement with more children is well placed if it may govern these as well. -/
theorem WellPlaced.append {s s' : Statement} {items : List Statement} (hs : s.WellPlaced)
    (hchildren : ∀ c ∈ s'.children, c ∈ s.children ∨ c ∈ leavesOf items)
    (hsame : s.isList = false ∧ s'.takesSteps = s.takesSteps) (h : ∀ t ∈ items, t.WellPlaced)
    (hgovernable : ∀ c ∈ leavesOf items, c.Governable s.takesSteps) : s'.WellPlaced := by
  refine wellPlaced_iff.mpr fun c hc => ?_
  rw [hsame.2]
  rcases hchildren c hc with hc | hc
  · obtain ⟨hplaced, hold⟩ := wellPlaced_iff.mp hs c hc
    exact ⟨hplaced, fun _ => hold hsame.1⟩
  · exact ⟨wellPlaced_leavesOf h c hc, fun _ => hgovernable c hc⟩

/-! ### Checked statements -/

/-- Statements put together by the checked constructors and by lists, be they spliced or not. -/
inductive Checked : Statement → Prop
  | command (c : Command) : Checked (.command c)
  | step (s : ScriptStep) : Checked (.step s)
  | list {items : List Statement} (h : ∀ s ∈ items, Checked s) : Checked (.list items)
  | ofList {items : List Statement} (h : ∀ s ∈ items, Checked s) : Checked (.ofList items)
  | block {header : String} {items : List Statement} {s : Statement}
      (h : ∀ s ∈ items, Checked s) (hs : Statement.block? header items = .ok s) : Checked s
  | onEvent {event : Event} {items : List Statement} {s : Statement}
      (h : ∀ s ∈ items, Checked s) (hs : Statement.onEvent? event items = .ok s) : Checked s
  | repeatLoop {count : Expr .integer} {items : List Statement} {s : Statement}
      (h : ∀ s ∈ items, Checked s) (hs : Statement.repeat? count items = .ok s) : Checked s
  | whileLoop {condition : Expr .bool} {items : List Statement} {s : Statement}
      (h : ∀ s ∈ items, Checked s) (hs : Statement.while? condition items = .ok s) : Checked s
  | forLoop {start next : Statement} {condition : Expr .bool} {items : List Statement}
      {s : Statement} (h : ∀ s ∈ items, Checked s)
      (hs : Statement.for? start condition next items = .ok s) : Checked s
  | conditional {condition : Expr .bool} {items : List Statement} {c : Conditional}
      (h : ∀ s ∈ items, Checked s) (hc : Conditional.new? condition items = .ok c) :
      Checked c.statement
  | otherwise {c c' : Conditional} {items : List Statement} (hc : Checked c.statement)
      (h : ∀ s ∈ items, Checked s) (hc' : c.otherwise? items = .ok c') : Checked c'.statement
  | caseTable (scrutinee : Value) : Checked (CaseTable.new scrutinee).statement
  | arm {c c' : CaseTable} {label : Value} {items : List Statement} (hc : Checked c.statement)
      (h : ∀ s ∈ items, Checked s) (hc' : c.arm? label items = .ok c') : Checked c'.statement
  | defaultArm {c c' : CaseTable} {items : List Statement} (hc : Checked c.statement)
      (h : ∀ s ∈ items, Checked s) (hc' : c.defaultArm? items = .ok c') : Checked c'.statement

/-- **What checked constructors and lists make** is well placed. -/
theorem Checked.wellPlaced {s : Statement} (h : s.Checked) : s.WellPlaced := by
  induction h with
  | command | step | caseTable => exact wellPlaced_iff.mpr fun c hc => absurd hc List.not_mem_nil
  | list _ ih => exact wellPlaced_iff.mpr fun c hc => ⟨ih c hc, fun hlist => nomatch hlist⟩
  | ofList _ ih =>
      exact wellPlaced_iff.mpr fun c hc => ⟨wellPlaced_leavesOf ih c hc, fun hlist => nomatch hlist⟩
  | block _ hs ih =>
      obtain ⟨rfl, hgovernable⟩ := governable_of_childrenOf hs
      exact wellPlaced_of_leaves rfl ih hgovernable
  | onEvent _ hs ih =>
      obtain ⟨rfl, hgovernable⟩ := governable_of_childrenOf hs
      exact wellPlaced_of_leaves rfl ih hgovernable
  | repeatLoop _ hs ih =>
      obtain ⟨rfl, hgovernable⟩ := governable_of_childrenOf hs
      exact wellPlaced_of_leaves rfl ih hgovernable
  | whileLoop _ hs ih =>
      obtain ⟨rfl, hgovernable⟩ := governable_of_childrenOf hs
      exact wellPlaced_of_leaves rfl ih hgovernable
  | forLoop _ hs ih =>
      unfold for? at hs
      split at hs
      · obtain ⟨rfl, hgovernable⟩ := governable_of_childrenOf hs
        exact wellPlaced_of_leaves rfl ih hgovernable
      · cases hs
  | conditional _ hc ih =>
      obtain ⟨rfl, hgovernable⟩ := governable_of_childrenOf hc
      exact wellPlaced_of_leaves (List.append_nil _) ih hgovernable
  | otherwise _ _ hc' ihc ih =>
      obtain ⟨rfl, hgovernable⟩ := governable_of_childrenOf hc'
      refine ihc.append (fun c hc => ?_) ⟨rfl, rfl⟩ ih hgovernable
      exact (List.mem_append.mp hc).imp_left (List.mem_append_left _)
  | arm _ _ hc' ihc ih =>
      obtain ⟨rfl, hgovernable⟩ := CaseTable.governable_of_arm? hc'
      refine ihc.append (fun c hc => ?_) ⟨rfl, rfl⟩ ih hgovernable
      simpa [CaseTable.statement, children, Arm.body] using hc
  | defaultArm _ _ hc' ihc ih =>
      obtain ⟨rfl, hgovernable⟩ := CaseTable.governable_of_defaultArm? hc'
      refine ihc.append (fun c hc => ?_) ⟨rfl, rfl⟩ ih hgovernable
      simpa [CaseTable.statement, children, Arm.body] using hc

end Statement

end Stimulus
