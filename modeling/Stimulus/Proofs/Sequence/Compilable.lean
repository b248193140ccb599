import Stimulus.Proofs.History
import Stimulus.Proofs.Sequence.Accepted
import Stimulus.Proofs.Sequence.Sealing

/-!
# Compilable scripts

A sequence is accepted exactly if its script is **compilable**: there is no case anywhere in it, and
no event block stands on top. The compiler checks both, at different times and in an order of its
own. Everything else that could be refused on the way is not: the constructors of statements have
kept event blocks and steps out of the blocks that are left as they are, so what runs the flow passes
its own checks, and no state is sealed at the wrong time.

## Main results

* `Sequence.compileAll_verdict`: how the compilation of a script ends.
* `Module.sequence_accepts`: which sequences are accepted, and how the others are refused.
-/

namespace Stimulus

open Build

/-! ### Verdicts -/

namespace Sequence

/-- What the outcome of a compilation says about the script. A script that is compiled is
compilable; otherwise the fault tells what is in it. -/
def Verdict (items : List Statement) : Option Fault → Prop
  | none => anyNodeOf Statement.isCase items = false ∧
    ∀ t ∈ leavesOf items, t.isEventBlock = false
  | some f => (f = .misplaced .caseInSequence ∧ anyNodeOf Statement.isCase items = true) ∨
    (f = .misplaced .eventInSequence ∧ ∃ t ∈ leavesOf items, t.isEventBlock = true)

/-- Every outcome of a step ends in a certain way. -/
abbrev Ends {α : Type} (P : Option Fault → Prop) (x : Build α) : Prop :=
  Relates (fun _ f _ => P f) x

section Ends

variable {α β : Type} {P Q S : Option Fault → Prop}

/-- A composed step ends as its parts do. -/
theorem Ends.bind {x : Build α} {f : α → Build β} (hx : Ends P x) (hf : ∀ a, Ends Q (f a))
    (herror : ∀ e, P (some e) → S (some e)) (hok : P none → ∀ o, Q o → S o) :
    Ends S (x >>= f) := by
  intro m
  cases h : x m with
  | error e m₁ =>
      rw [RelatesAt, bind_of_error h]
      exact herror e (hx.error h)
  | ok a m₁ =>
      rw [RelatesAt, bind_of_ok h]
      cases h' : f a m₁ with
      | ok b m₂ => exact hok (hx.ok h) none ((hf a).ok h')
      | error e m₂ => exact hok (hx.ok h) (some e) ((hf a).error h')

/-- A step that goes on from a successful one ends as it does. -/
theorem Ends.map {x : Build α} {f : α → Build β} (hx : Ends P x)
    (hf : ∀ a m, ∃ b m', f a m = .ok b m') (hP : ∀ o, P o → S o) : Ends S (x >>= f) := by
  refine hx.bind (Q := (· = none)) (fun a m => ?_) (fun e => hP _) fun h o ho => ho ▸ hP _ h
  obtain ⟨b, m', h⟩ := hf a m
  rw [RelatesAt, h]

end Ends

/-! ### The verdict on statements -/

/-- The verdict on a list is the verdict on its statements. -/
theorem Verdict.list {items : List Statement} {f : Option Fault} (h : Verdict items f) :
    Verdict [.list items] f := by
  have hcase : anyNodeOf Statement.isCase [.list items] = anyNodeOf Statement.isCase items := by
    rw [anyNodeOf, Statement.anyNode, anyNodeOf, Bool.or_false]
    rfl
  have hleaves : leavesOf [.list items] = leavesOf items := by
    rw [leavesOf, Statement.leaves, leavesOf, List.append_nil]
  cases f with
  | none => rwa [Verdict, hcase, hleaves]
  | some f => rwa [Verdict, hcase, hleaves]

/-- A leaf that is no event block is compilable if there is no case in it. -/
theorem verdict_leaf {s : Statement} (hleaves : s.leaves = [s])
    (hcase : s.anyNode Statement.isCase = false) (hevent : s.isEventBlock = false) :
    Verdict [s] none := by
  refine ⟨?_, ?_⟩
  · rw [anyNodeOf, hcase]
    rfl
  · rw [leavesOf, hleaves]
    exact List.forall_mem_singleton.mpr hevent

/-- A script with a case in it is refused for it. -/
theorem verdict_case {s : Statement} (hcase : s.anyNode Statement.isCase = true) :
    Verdict [s] (some (.misplaced .caseInSequence)) := by
  refine .inl ⟨rfl, ?_⟩
  rw [anyNodeOf, hcase]
  rfl

/-- A script that is governed holds no event blocks, so it can be refused for a case only. -/
theorem Verdict.governed {items : List Statement} {f : Fault} {steps : Bool}
    (h : Verdict items (some f)) (hgovernable : ∀ c ∈ items, c.Governable steps) :
    f = .misplaced .caseInSequence ∧ anyNodeOf Statement.isCase items = true := by
  rcases h with h | ⟨-, t, ht, hevent⟩
  · exact h
  · obtain ⟨-, s, hs, hwithin⟩ := within_of_mem_leavesOf ht
    have := Statement.anyNode_eq_false.mp (hgovernable s hs).1 t hwithin
    rw [hevent] at this
    cases this

/-- The verdict on a statement that governs a script and is no event block. -/
theorem Verdict.governs {items : List Statement} {s : Statement} {f : Option Fault} {steps : Bool}
    (h : Verdict items f) (hgovernable : ∀ c ∈ items, c.Governable steps)
    (hleaves : s.leaves = [s]) (hevent : s.isEventBlock = false)
    (hcase : s.anyNode Statement.isCase = anyNodeOf Statement.isCase items) : Verdict [s] f := by
  cases f with
  | none => exact verdict_leaf hleaves (hcase.trans h.1) hevent
  | some f =>
      obtain ⟨rfl, hcases⟩ := h.governed hgovernable
      exact verdict_case (hcase.trans hcases)

/-- The verdict on a script that goes on is a refusal if it starts with one. -/
theorem Verdict.cons_error {s : Statement} {rest : List Statement} {f : Fault}
    (h : Verdict [s] (some f)) : Verdict (s :: rest) (some f) := by
  rw [Verdict, anyNodeOf, anyNodeOf, Bool.or_false, leavesOf, leavesOf, List.append_nil] at h
  rw [Verdict, anyNodeOf, leavesOf]
  refine h.imp (And.imp_right fun hcase => by rw [hcase, Bool.true_or]) (And.imp_right ?_)
  rintro ⟨t, ht, hevent⟩
  exact ⟨t, List.mem_append_left _ ht, hevent⟩

/-- The verdict on a script that goes on from a compilable statement is that on the rest. -/
theorem Verdict.cons {s : Statement} {rest : List Statement} (h : Verdict [s] none)
    (f : Option Fault) (hrest : Verdict rest f) : Verdict (s :: rest) f := by
  rw [Verdict, anyNodeOf, anyNodeOf, Bool.or_false, leavesOf, leavesOf, List.append_nil] at h
  cases f with
  | none =>
      rw [Verdict, anyNodeOf, leavesOf, h.1, Bool.false_or, List.forall_mem_append]
      exact ⟨hrest.1, h.2, hrest.2⟩
  | some f =>
      rw [Verdict, anyNodeOf, leavesOf, h.1, Bool.false_or]
      refine hrest.imp_right (And.imp_right ?_)
      rintro ⟨t, ht, hevent⟩
      exact ⟨t, List.mem_append_right _ ht, hevent⟩

/-- **The verdict on a script** is what its compilation says. -/
theorem compileAll_verdict {index base : Nat} {pending : List Work} {items : List Statement}
    (h : ∀ s ∈ items, s.WellPlaced) :
    Ends (Verdict items) (compileAll index base pending items) := by
  induction base, pending, items using compileAll.induct
    (fun base pending s => s.WellPlaced → Ends (Verdict [s]) (compile index base pending s)) with
  | case1 base pending c h =>
      rw [compile]
      exact fun m => verdict_leaf rfl rfl rfl
  | case2 base pending items ih h =>
      rw [compile]
      refine (ih fun s hs => ?_).mono fun _ _ _ => Verdict.list
      exact (Statement.wellPlaced_iff.mp h s hs).1
  | case3 base pending microseconds h =>
      rw [compile]
      exact fun m => verdict_leaf rfl rfl rfl
  | case4 base pending event h =>
      rw [compile]
      intro m
      rw [RelatesAt, bind_of_ok (Module.registerSignal_eq index event m)]
      exact verdict_leaf rfl rfl rfl
  | case5 base pending state label h =>
      rw [compile]
      exact fun m => verdict_leaf rfl rfl rfl
  | case6 base pending condition yes no ihy ihn h =>
      have hall := Statement.wellPlaced_iff.mp h
      rw [compile]
      have hgovernable (c : Statement) (hc : c ∈ yes ++ no) : c.Governable true :=
        (hall c hc).2 rfl
      have hyes := ihy fun s hs => (hall s (List.mem_append_left _ hs)).1
      refine hyes.bind (Q := Verdict no) (fun y => ?_) (fun e he => ?_) fun hy f hf => ?_
      · split
        case isTrue hno =>
            rw [List.isEmpty_iff.mp hno]
            exact fun m => ⟨rfl, List.forall_mem_nil _⟩
        case isFalse =>
            have hno := ihn y fun s hs => (hall s (List.mem_append_right _ hs)).1
            exact hno.map (fun _ m => ⟨_, m, rfl⟩) fun _ hf => hf
      · obtain ⟨rfl, hcase⟩ := he.governed fun c hc => hgovernable c (List.mem_append_left _ hc)
        refine verdict_case ?_
        rw [Statement.anyNode_eq, Statement.children, anyNodeOf_append, hcase]
        rfl
      · refine hf.governs (fun c hc => hgovernable c (List.mem_append_right _ hc)) rfl rfl ?_
        rw [Statement.anyNode_eq, Statement.children, anyNodeOf_append, hy.1]
        rfl
  | case7 base pending count body ih h =>
      have hall := Statement.wellPlaced_iff.mp h
      rw [compile]
      intro m
      obtain ⟨counter, m₁, hcounter⟩ :
          ∃ v m', Module.anonymousVariable (.integer 0) m = .ok v m' := ⟨_, _, rfl⟩
      rw [RelatesAt, bind_of_ok hcounter]
      refine (ih fun s hs => (hall s hs).1).map (fun _ m => ⟨_, m, rfl⟩) (fun f hf => ?_) m₁
      exact hf.governs (fun c hc => (hall c hc).2 rfl) rfl rfl rfl
  | case8 base pending condition body ih h =>
      have hall := Statement.wellPlaced_iff.mp h
      rw [compile]
      refine (ih fun s hs => (hall s hs).1).map (fun _ m => ⟨_, m, rfl⟩) fun f hf => ?_
      exact hf.governs (fun c hc => (hall c hc).2 rfl) rfl rfl rfl
  | case9 base pending start condition next body ih h =>
      have hall := Statement.wellPlaced_iff.mp h
      rw [compile]
      refine (ih fun s hs => (hall s hs).1).map (fun _ m => ⟨_, m, rfl⟩) fun f hf => ?_
      exact hf.governs (fun c hc => (hall c hc).2 rfl) rfl rfl rfl
  | case10 base pending header body hcase h =>
      rw [compile, if_pos hcase]
      exact fun m => verdict_case hcase
  | case11 base pending header body hcase h =>
      rw [compile, if_neg hcase]
      exact fun m => verdict_leaf rfl (Bool.eq_false_iff.mpr hcase) rfl
  | case12 base pending event body hcase h =>
      rw [compile, if_pos hcase]
      exact fun m => verdict_case hcase
  | case13 base pending event body hcase h =>
      rw [compile, if_neg hcase]
      exact fun m => .inr ⟨rfl, _, List.mem_singleton_self _, rfl⟩
  | case14 base pending scrutinee arms h =>
      rw [compile]
      exact fun m => verdict_case rfl
  | case15 base pending =>
      rw [compileAll]
      exact fun m => ⟨rfl, List.forall_mem_nil _⟩
  | case16 base pending s rest ih ihr =>
      rw [List.forall_mem_cons] at h
      rw [compileAll]
      refine (ih h.1).bind (fun f => ?_) (fun e => Verdict.cons_error) Verdict.cons
      exact (ihr f h.2).map (fun _ m => ⟨_, m, rfl⟩) fun _ hf => hf

/-! ### What runs a flow -/

/-- A statement that is neither an event block nor a step may be governed if its children may. -/
theorem governable_of_children {s : Statement}
    (hs : s.isEventBlock = false ∧ s.isScriptStep = false)
    (h : ∀ c ∈ s.children, c.Governable false) : s.Governable false := by
  refine ⟨?_, fun _ => ?_⟩
  · rw [Statement.hasEventBlock, Statement.anyNode_eq, hs.1]
    exact anyNodeOf_eq_false.mpr fun c hc => (h c hc).1
  · rw [Statement.hasScriptStep, Statement.anyNode_eq, hs.2]
    exact anyNodeOf_eq_false.mpr fun c hc => (h c hc).2 rfl

/-- Commands may be governed. -/
theorem governable_command (c : Command) : (Statement.command c).Governable false :=
  ⟨rfl, fun _ => rfl⟩

/-- The plain statements of a well-placed script may be governed. -/
theorem governable_plain {items : List Statement} (h : ∀ s ∈ items, s.WellPlaced) {t : Statement}
    (ht : t ∈ plainOf items) : t.Governable false := by
  rcases plainIn_of_mem_partsOf (mem_plainOf.mp ht) with ⟨c, rfl⟩ | ⟨_, _, rfl, s, hs, hwithin⟩
  · exact governable_command c
  · exact governable_of_children ⟨rfl, rfl⟩ fun c hc => h s hs _ hwithin rfl c hc

/-- The statements of a tail may be governed. -/
theorem Tail.governable (control : SequenceControl) (tail : Tail) :
    ∀ t ∈ tail.statements control, t.Governable false := by
  have hgoto (target : Nat) : (goto control target).Governable false := governable_command _
  cases tail with
  | branch condition yes no =>
      have hchoice : (Statement.branch condition [goto control yes] [goto control no]).Governable
          false := governable_of_children ⟨rfl, rfl⟩ (by simp [Statement.children, hgoto])
      simp [statements, runOn, governable_command, hchoice]
  | _ => simp [statements, awaitEvent, runOn, hgoto, governable_command]

section Runner

variable {number : Event → Nat} {items : List Statement} {counters : List String} {f : Fragment}

/-- The statements of the states of a flow may be governed if the plain ones of its script may. -/
theorem Layout.governable_state (h : Layout number 0 [] items counters f)
    (hplain : ∀ t ∈ plainOf items, t.Governable false) (control : SequenceControl) {s : State}
    (hs : s ∈ f.finish) : ∀ t ∈ s.statements control, t.Governable false := by
  intro t ht
  rcases List.mem_append.mp ht with ht | ht
  · obtain ⟨w, hw, rfl⟩ := List.mem_map.mp ht
    cases w with
    | counting c => exact governable_command c
    | placed u =>
        have hwork : Work.placed u ∈ f.work := by
          rw [← f.finish_work]
          exact List.mem_flatMap.mpr ⟨s, hs, hw⟩
        exact hplain u ((h.placed_mem hwork).resolve_left List.not_mem_nil)
  · exact s.tail.governable control t ht

/-- The case over the states of a flow may be governed. -/
theorem Layout.governable_case (h : Layout number 0 [] items counters f)
    (hplain : ∀ t ∈ plainOf items, t.Governable false) (control : SequenceControl) :
    (f.finish.case control).statement.Governable false := by
  rw [h.case_eq]
  refine governable_of_children ⟨rfl, rfl⟩ fun t ht => ?_
  obtain ⟨arm, harm, ht⟩ := List.mem_flatMap.mp ht
  obtain ⟨p, hp, rfl⟩ := List.mem_map.mp harm
  exact h.governable_state hplain control (List.fst_mem_of_mem_zipIdx hp) t ht

/-- **What runs a flow is accepted**: the loop around its case, the guard around the loop, and both
of them by the body. -/
theorem Layout.runner_accepted (h : Layout number 0 [] items counters f)
    (hplain : ∀ t ∈ plainOf items, t.Governable false) (control : SequenceControl)
    (guard : Expr .bool) :
    ∃ loop guarded,
      Statement.while? control.running.expr
        [.command (control.running.assign (.bool false)), (f.finish.case control).statement]
          = .ok loop ∧
      Conditional.new? guard [loop] = .ok guarded ∧ guarded.statement.hasScriptStep = false := by
  have hinside : ∀ c ∈ [.command (control.running.assign (.bool false)),
      (f.finish.case control).statement], c.Governable false := by
    rw [List.forall_mem_cons, List.forall_mem_singleton]
    exact ⟨governable_command _, h.governable_case hplain control⟩
  have hloop : (Statement.block (.whileLoop control.running.expr)
      [.command (control.running.assign (.bool false)),
        (f.finish.case control).statement]).Governable false :=
    governable_of_children ⟨rfl, rfl⟩ hinside
  have hguarded : (Statement.branch guard [.block (.whileLoop control.running.expr)
      [.command (control.running.assign (.bool false)),
        (f.finish.case control).statement]] []).Governable false :=
    governable_of_children ⟨rfl, rfl⟩ (List.forall_mem_singleton.mpr hloop)
  exact ⟨_, _, childrenOf_bind fun c hc => ⟨(hinside c hc).1, nofun⟩,
    childrenOf_bind (List.forall_mem_singleton.mpr ⟨hloop.1, nofun⟩), hguarded.2 rfl⟩

end Runner

end Sequence

/-! ### The variables of a sequence -/

namespace SequenceControl

variable (c : SequenceControl)

/-- The names of the variables that control a sequence are accepted. -/
theorem names_check : ∀ x ∈ c.names, Name.check x = .ok () := by
  simp only [names, List.mem_cons, List.not_mem_nil, or_false]
  rintro x (rfl | rfl | rfl | rfl)
  all_goals exact Name.check_numbered c.index (by decide) rfl

/-- The control of a sequence can be declared if its names are free. -/
theorem declare_of_free {m : Module} (h : ∀ x ∈ c.names, x ∉ m.names.taken) :
    ∃ m', c.declare m = .ok () m' := by
  have hcheck := c.names_check
  have hnodup := c.names_nodup
  simp only [names, List.mem_cons, List.not_mem_nil, or_false, forall_eq_or_imp, forall_eq]
    at h hcheck
  simp only [names, List.nodup_cons, List.mem_cons, List.not_mem_nil, or_false, not_or,
    List.nodup_nil, not_false_eq_true, and_true] at hnodup
  obtain ⟨htime, hstate, hrunning, hevent⟩ := h
  obtain ⟨⟨hts, htr, hte⟩, ⟨hsr, hse⟩, hre⟩ := hnodup
  obtain ⟨_, m₁, h₁, t₁⟩ := Module.namedVariable_of_free (.real 0.0) hcheck.1 htime
  obtain ⟨_, m₂, h₂, t₂⟩ := Module.namedVariable_of_free (m := m₁) (.integer 0) hcheck.2.1
    (by simp [t₁, hstate, Ne.symm hts])
  obtain ⟨_, m₃, h₃, t₃⟩ := Module.namedVariable_of_free (m := m₂) (.bool false) hcheck.2.2.1
    (by simp [t₁, t₂, hrunning, Ne.symm htr, Ne.symm hsr])
  obtain ⟨_, m₄, h₄, -⟩ := Module.namedVariable_of_free (m := m₃) (.integer 0) hcheck.2.2.2
    (by simp [t₁, t₂, t₃, hevent, Ne.symm hte, Ne.symm hse, Ne.symm hre])
  refine ⟨m₄, ?_⟩
  rw [declare, bind_of_ok h₁, bind_of_ok h₂, bind_of_ok h₃, bind_of_ok h₄]
  rfl

end SequenceControl

/-! ### Sequences that are accepted -/

open Sequence

namespace Module

/-- **The verdict on a sequence** whose variables have free names is that on its script. -/
theorem sequence_verdict (guard : Expr .bool) {items : List Statement} {m : Module}
    (ho : Orderly m.prologue) (hplaced : ∀ s ∈ items, s.WellPlaced)
    (hfree : ∀ x ∈ (SequenceControl.mk (m.sequences + 1)).names, x ∉ m.names.taken) :
    match sequence guard items m with
    | .ok _ _ => Verdict items none
    | .error e _ => Verdict items (some e) := by
  obtain ⟨m₁, hdeclare⟩ := SequenceControl.declare_of_free _ hfree
  have hprologue : m₁.prologue = m.prologue := by
    obtain ⟨-, -, -, names, hm₁⟩ := SequenceControl.declare_ok hdeclare
    rw [hm₁]
  unfold sequence
  rw [bind_of_ok (get_ok.mpr ⟨rfl, rfl⟩), bind_of_ok hdeclare,
    bind_of_ok (a := PUnit.unit) (modify_ok.mpr rfl), bind_of_ok (get_ok.mpr ⟨rfl, rfl⟩),
    bind_of_ok (a := PUnit.unit) (modify_ok.mpr rfl)]
  cases hcompile : compileAll (SequenceControl.mk (m.sequences + 1)).index 0 [] items _ with
  | error e m₂ =>
      rw [bind_of_error hcompile]
      exact (compileAll_verdict hplaced).error hcompile
  | ok f m₂ =>
      rw [bind_of_ok hcompile]
      obtain ⟨counters, heffect, hlayout⟩ := layout_of_compileAll hcompile
      have hagrees : Agrees (numberIn m₂.prologue) m₂.prologue := by
        obtain ⟨names₂, hm₂⟩ := heffect.module_eq
        refine agrees_numberIn ?_
        rw [hm₂]
        exact (Orderly.statement (hprologue ▸ ho) _).registeredAll _ _
      obtain ⟨loop, guarded, hloop, hguarded, hstepless⟩ := (hlayout _ hagrees).runner_accepted
        (fun t => governable_plain hplaced) ⟨m.sequences + 1⟩ guard
      rw [hloop, ofExcept_of_ok, pure_bind, hguarded, ofExcept_of_ok, pure_bind,
        bind_of_ok (addBody_of_stepless hstepless m₂)]
      exact (compileAll_verdict hplaced).ok hcompile

/-- **Compilable scripts.** Whatever was done to a module before, a sequence whose four variables
have free names and whose script was put together by checked constructors and by lists is accepted
exactly if there is no case anywhere in its script and no event block among the leaves. All that it
can be refused for is one of these two, which is a violation of the shape of a sequence. As the
sequence is the one that is compiled by way of a draft, sealing never fails. -/
theorem sequence_accepts {options : Options} {present name : String} {m₀ : Module}
    (h₀ : Module.new? options present name = .ok m₀) (history : List Operation)
    {guard : Expr .bool} {items : List Statement} (hchecked : ∀ s ∈ items, s.Checked)
    (hfree : ∀ x ∈ (SequenceControl.mk ((m₀.after history).sequences + 1)).names,
      x ∉ (m₀.after history).names.taken) :
    draftedSequence guard items = sequence guard items ∧
      ((∃ r m', sequence guard items (m₀.after history) = .ok r m') ↔
        (∀ s ∈ items, ∀ t : Statement, t.Within s → t.isCase = false) ∧
          ∀ t ∈ leavesOf items, t.isEventBlock = false) ∧
      ∀ f m', sequence guard items (m₀.after history) = .error f m' →
        ∃ flaw, f = .misplaced flaw ∧ flaw.title = "sequence" ∧
          (flaw = .caseInSequence ∨ flaw = .eventInSequence) := by
  have hverdict := sequence_verdict guard (orderly_after h₀ history)
    (fun s hs => (hchecked s hs).wellPlaced) hfree
  simp only [← Statement.anyNode_eq_false, ← anyNodeOf_eq_false]
  refine ⟨draftedSequence_eq guard items, ?_⟩
  cases h : sequence guard items (m₀.after history) with
  | ok r m' =>
      rw [h] at hverdict
      exact ⟨⟨fun _ => hverdict, fun _ => ⟨r, m', rfl⟩⟩, nofun⟩
  | error f m' =>
      rw [h] at hverdict
      refine ⟨⟨nofun, fun ⟨hcase, hevent⟩ => ?_⟩, ?_⟩
      · rcases hverdict with ⟨-, h⟩ | ⟨-, t, ht, h⟩
        · cases hcase.symm.trans h
        · cases (hevent t ht).symm.trans h
      · rintro _ _ ⟨⟩
        rcases hverdict with ⟨rfl, -⟩ | ⟨rfl, -⟩
        · exact ⟨_, rfl, rfl, .inl rfl⟩
        · exact ⟨_, rfl, rfl, .inr rfl⟩

/-- A second sequence with the script of the first one is accepted. With a case in a list in front
it is refused. -/
theorem sequence_accepts_second :
    let toggle : Statement := .command (.toggle "a")
    let wait : Statement := .wait (.real 1.0)
    let script : List Statement :=
      [.list [.block (.whileLoop (.ident "on")) [wait, toggle]],
        .branch (.ident "c") [toggle] [wait]]
    let choice : Statement := .select ⟨.integer, .ident "n"⟩ []
    let history : List Operation := [.sequence (.bool true) script]
    ∃ m₀, Module.new? .standard "" "bench" = .ok m₀ ∧
      (∃ r m', sequence (.bool true) script (m₀.after history) = .ok r m') ∧
      ¬ ∃ r m', sequence (.bool true) (.list [choice] :: script) (m₀.after history) = .ok r m' := by
  intro toggle wait script choice history
  obtain ⟨m₀, h₀⟩ : ∃ m₀, Module.new? .standard "" "bench" = .ok m₀ := ⟨_, rfl⟩
  have hbody : ∀ s ∈ [wait, toggle], s.Checked := by
    rw [List.forall_mem_cons, List.forall_mem_singleton]
    exact ⟨.step _, .command _⟩
  have hloop : (Statement.block (.whileLoop (.ident "on")) [wait, toggle]).Checked :=
    .whileLoop hbody rfl
  have hthen : (Conditional.mk (.ident "c") [toggle] []).statement.Checked :=
    .conditional (List.forall_mem_singleton.mpr (.command _)) rfl
  have hbranch : (Conditional.mk (.ident "c") [toggle] [wait]).statement.Checked :=
    .otherwise hthen (List.forall_mem_singleton.mpr (.step _)) rfl
  have hscript : ∀ s ∈ script, s.Checked := by
    rw [List.forall_mem_cons, List.forall_mem_singleton]
    exact ⟨.list (List.forall_mem_singleton.mpr hloop), hbranch⟩
  have hwith : ∀ s ∈ Statement.list [choice] :: script, s.Checked := by
    rw [List.forall_mem_cons]
    exact ⟨.list (List.forall_mem_singleton.mpr (.caseTable _)), hscript⟩
  have hfree : ∀ x ∈ (SequenceControl.mk ((m₀.after history).sequences + 1)).names,
      x ∉ (m₀.after history).names.taken := by
    rw [eq_of_new? h₀]
    decide +kernel
  refine ⟨m₀, h₀, (sequence_accepts h₀ history hscript hfree).2.1.mpr ⟨?_, ?_⟩, fun h => ?_⟩
  · exact fun s hs => Statement.anyNode_eq_false.mp (anyNodeOf_eq_false.mp rfl s hs)
  · simp [script, leavesOf, Statement.leaves, Statement.isEventBlock]
  · have := ((sequence_accepts h₀ history hwith hfree).2.1.mp h).1 _ List.mem_cons_self choice
    cases this (.of_child (List.mem_singleton_self choice) (.refl choice))

end Module

end Stimulus
