import Stimulus.Proofs.Sequence.Work
import Stimulus.Proofs.Statement.Checked

/-!
# Accepted sequences

A sequence that a module accepts leaves three things there: the variables that control it and the
counters of its loops, a driver in the prologue, and in the body the statement that runs it. The
shared events of its signals are entered into the prologue as well.

## Main results

* `Module.sequence_ok`: what an accepted sequence changes in a module.
* `Sequence.Layout.runner_eq`: the statement that runs a sequence, written out.
-/

namespace Stimulus

open Build

/-! ### What a sequence leaves in a module -/

namespace SequenceControl

variable (c : SequenceControl)

/-- The names of the variables that control a sequence, in the order of their declaration. -/
def names : List String :=
  [c.time.name, c.state.name, c.running.name, c.event.name]

/-- The names of the variables that control a sequence are different. -/
theorem names_nodup : c.names.Nodup := by
  -- They differ before the number comes.
  refine List.Nodup.of_map (fun x : String => x.toList.take 5) ?_
  have hfronts : c.names.map (fun x => x.toList.take 5)
      = ["_$evn".toList, "_$sta".toList, "_$run".toList, "_$eve".toList] := by
    simp [names, time, state, running, event]
  rw [hfronts]
  decide

/-- The variables that control a sequence differ from each other. -/
theorem names_ne : c.time.name ≠ c.state.name ∧ c.time.name ≠ c.running.name ∧
    c.time.name ≠ c.event.name ∧ c.state.name ≠ c.running.name ∧ c.state.name ≠ c.event.name ∧
    c.running.name ≠ c.event.name := by
  simpa [names, and_assoc] using c.names_nodup

/-- The declarations of the variables that control a sequence. -/
def declarations : List VariableDeclaration :=
  [⟨c.time.name, ⟨_, .real 0.0⟩⟩, ⟨c.state.name, ⟨_, .integer 0⟩⟩,
    ⟨c.running.name, ⟨_, .bool false⟩⟩, ⟨c.event.name, ⟨_, .integer 0⟩⟩]

/-- The block that drives a sequence when its timer expires. -/
def driver (tolerance : Option Float) : Statement :=
  .block (.onEvent (c.timer tolerance)) [c.resumeOn 0]

end SequenceControl

namespace Sequence

/-- The arms of the case over the states of a flow, labelled from 0 on. -/
def Flow.arms (control : SequenceControl) (flow : Flow) : List Arm :=
  flow.zipIdx.map fun (s, n) => .mk (some ⟨_, .integer n⟩) (s.statements control)

/-- The loop of a sequence: while it has been told to run, it does what its state says. -/
def loop (control : SequenceControl) (flow : Flow) : Statement :=
  .block (.whileLoop control.running.expr)
    [.command (control.running.assign (.bool false)),
      .select ⟨_, control.state.expr⟩ (flow.arms control)]

/-- The statement that runs a sequence: its loop under its guard. -/
def runner (guard : Expr .bool) (control : SequenceControl) (flow : Flow) : Statement :=
  .branch guard [loop control flow] []

/-- **What an accepted sequence changes.** It was compiled to the fragment `f`, whose loops have the
given counters. -/
structure Accepted (guard : Expr .bool) (items : List Statement) (m : Module)
    (control : SequenceControl) (f : Fragment) (counters : List String) (m' : Module) :
    Prop where
  control_eq : control = ⟨m.sequences + 1⟩
  layout : ∀ number, Agrees number m'.prologue → Layout number 0 [] items counters f
  module_eq : ∃ names, m' = { m with
    names
    declaredVariables := m.declaredVariables ++ control.declarations
      ++ counters.map counterDeclaration
    initialisation := m.initialisation ++ control.declarations.map (·.assignment)
      ++ (counters.map counterDeclaration).map (·.assignment)
    sequences := m.sequences + 1
    prologue := registeredAll control.index
      (m.prologue ++ [.statement (control.driver m.options.timerTolerance)]) (signalsOf items)
    body := m.body ++ [runner guard control f.finish] }
  taken : m'.names.taken = counters.reverse ++ (control.names.reverse ++ m.names.taken)
  fresh : (control.names ++ counters).Nodup ∧ ∀ x ∈ control.names ++ counters, x ∉ m.names.taken
  numbered : ∀ c ∈ counters, ∃ n, c = Name.anonymous n
  stepless : (runner guard control f.finish).hasScriptStep = false

/-! ### Leaves -/

/-- No statement of a tail is a list. -/
theorem Tail.leaves_eq (control : SequenceControl) (tail : Tail) :
    ∀ s ∈ tail.statements control, s.leaves = [s] := by
  cases tail <;> simp [statements, awaitEvent, goto, runOn, Statement.leaves]

/-- Work of a laid out script is not a list. -/
theorem Layout.leaves_eq {number : Event → Nat} {items : List Statement}
    {counters : List String} {f : Fragment} (h : Layout number 0 [] items counters f)
    {w : Work} (hw : w ∈ f.work) : w.statement.leaves = [w.statement] := by
  cases w with
  | counting c => rfl
  | placed s =>
      have hs := (h.placed_mem hw).resolve_left List.not_mem_nil
      rcases plainIn_of_mem_partsOf (mem_plainOf.mp hs) with ⟨c, rfl⟩ | ⟨header, body, rfl, -⟩
      · rfl
      · rfl

/-- The work of the states of a whole flow is the work of its fragment. -/
theorem Fragment.finish_work (f : Fragment) : f.finish.flatMap (·.work) = f.work := by
  unfold finish work
  split
  case isTrue h =>
      obtain h := List.isEmpty_iff.mp h
      simp [h]
  case isFalse => simp

/-- The states of a laid out script are spliced already. -/
theorem Layout.statements_leaves {number : Event → Nat} {items : List Statement}
    {counters : List String} {f : Fragment} (h : Layout number 0 [] items counters f)
    (control : SequenceControl) {s : State} (hs : s ∈ f.finish) :
    leavesOf (s.statements control) = s.statements control := by
  refine leavesOf_eq fun t ht => ?_
  rcases List.mem_append.mp ht with ht | ht
  · obtain ⟨w, hw, rfl⟩ := List.mem_map.mp ht
    refine h.leaves_eq ?_
    rw [← f.finish_work]
    exact List.mem_flatMap.mpr ⟨s, hs, hw⟩
  · exact s.tail.leaves_eq control t ht

/-- The case over a laid out script, with its arms written out. -/
theorem Layout.case_eq {number : Event → Nat} {items : List Statement}
    {counters : List String} {f : Fragment} (h : Layout number 0 [] items counters f)
    (control : SequenceControl) :
    (f.finish.case control).statement
      = .select ⟨_, control.state.expr⟩ (f.finish.arms control) := by
  unfold Flow.case CaseTable.numbered CaseTable.statement Flow.arms
  rw [List.zipIdx_map, List.map_map]
  congr 1
  refine List.map_congr_left fun p hp => ?_
  have := h.statements_leaves control (List.fst_mem_of_mem_zipIdx hp)
  simp only [Function.comp_apply, Prod.map_fst, Prod.map_snd, id_eq, this]

/-- The loop of a laid out script under its guard is the statement that runs the sequence. -/
theorem Layout.runner_eq {number : Event → Nat} {items : List Statement}
    {counters : List String} {f : Fragment} (h : Layout number 0 [] items counters f)
    (guard : Expr .bool) (control : SequenceControl) {loop : Statement} {guarded : Conditional}
    (hloop : Statement.while? control.running.expr
      [.command (control.running.assign (.bool false)), (f.finish.case control).statement]
      = .ok loop)
    (hguarded : Conditional.new? guard [loop] = .ok guarded) :
    guarded.statement = runner guard control f.finish := by
  obtain rfl := Statement.while?_ok hloop
  obtain rfl := Conditional.new?_ok hguarded
  rw [h.case_eq]
  rfl

end Sequence

/-! ### Acceptance -/

/-- The control of a sequence that is declared had four free names, which are different and taken
afterwards. -/
theorem SequenceControl.declare_ok {c : SequenceControl} {m m' : Module} {u : Unit}
    (h : c.declare m = .ok u m') :
    c.names.Nodup ∧ (∀ x ∈ c.names, x ∉ m.names.taken) ∧
      m'.names.taken = c.names.reverse ++ m.names.taken ∧
      ∃ names, m' = { m with
        names
        declaredVariables := m.declaredVariables ++ c.declarations
        initialisation := m.initialisation ++ c.declarations.map (·.assignment) } := by
  unfold declare at h
  obtain ⟨_, m₁, h₁, h⟩ := bind_ok.mp h
  obtain ⟨_, m₂, h₂, h⟩ := bind_ok.mp h
  obtain ⟨_, m₃, h₃, h⟩ := bind_ok.mp h
  obtain ⟨_, m₄, h₄, h⟩ := bind_ok.mp h
  obtain ⟨-, rfl⟩ := pure_ok.mp h
  obtain ⟨-, f₁, t₁, names₁, rfl⟩ := Module.namedVariable_ok h₁
  obtain ⟨-, f₂, t₂, names₂, rfl⟩ := Module.namedVariable_ok h₂
  obtain ⟨-, f₃, t₃, names₃, rfl⟩ := Module.namedVariable_ok h₃
  obtain ⟨-, f₄, t₄, names₄, rfl⟩ := Module.namedVariable_ok h₄
  dsimp only at t₁ t₂ t₃ t₄ f₂ f₃ f₄
  rw [t₁] at t₂ f₂
  rw [t₂] at t₃ f₃
  rw [t₃] at t₄ f₄
  simp only [List.mem_cons, not_or] at f₂ f₃ f₄
  refine ⟨?_, ?_, ?_, names₄, ?_⟩
  · simp only [names, List.nodup_cons, List.mem_cons, List.not_mem_nil, or_false, not_or,
      List.nodup_nil, not_false_eq_true, and_true]
    exact ⟨⟨Ne.symm f₂.1, Ne.symm f₃.2.1, Ne.symm f₄.2.2.1⟩,
      ⟨Ne.symm f₃.1, Ne.symm f₄.2.1⟩, Ne.symm f₄.1⟩
  · simp only [names, List.mem_cons, List.not_mem_nil, or_false]
    rintro x (rfl | rfl | rfl | rfl)
    · exact f₁
    · exact f₂.2
    · exact f₃.2.2
    · exact f₄.2.2.2
  · simp only [names, t₄, List.reverse_cons, List.reverse_nil, List.nil_append,
      List.cons_append]
  · simp [declarations, VariableDeclaration.assignment]

/-- **An accepted sequence** changes the module in the way described by `Sequence.Accepted`. -/
theorem Module.sequence_ok {guard : Expr .bool} {items : List Statement} {m m' : Module}
    {r : CompiledSequence} (ho : Orderly m.prologue)
    (h : Module.sequence guard items m = .ok r m') :
    ∃ f counters, r.states = f.finish.length ∧ r.finish = f.last ∧
      Sequence.Accepted guard items m r.control f counters m' := by
  unfold Module.sequence at h
  obtain ⟨_, _, hg, h⟩ := bind_ok.mp h
  obtain ⟨rfl, rfl⟩ := get_ok.mp hg
  obtain ⟨_, m₁, hdeclare, h⟩ := bind_ok.mp h
  obtain ⟨_, _, hnumber, h⟩ := bind_ok.mp h
  obtain rfl := modify_ok.mp hnumber
  obtain ⟨_, _, hg, h⟩ := bind_ok.mp h
  obtain ⟨rfl, rfl⟩ := get_ok.mp hg
  obtain ⟨_, _, hdriver, h⟩ := bind_ok.mp h
  obtain rfl := modify_ok.mp hdriver
  obtain ⟨f, m₂, hcompile, h⟩ := bind_ok.mp h
  obtain ⟨loop, _, hl, h⟩ := bind_ok.mp h
  obtain ⟨hloop, rfl⟩ := ofExcept_ok.mp hl
  obtain ⟨guarded, _, hc, h⟩ := bind_ok.mp h
  obtain ⟨hguarded, rfl⟩ := ofExcept_ok.mp hc
  obtain ⟨_, m₃, hbody, h⟩ := bind_ok.mp h
  obtain ⟨rfl, rfl⟩ := pure_ok.mp h
  obtain ⟨hnodup, hfree, htaken, names₁, rfl⟩ := SequenceControl.declare_ok hdeclare
  obtain ⟨counters, heffect, hlayout⟩ := Sequence.layout_of_compileAll hcompile
  obtain ⟨names₂, hm₂⟩ := heffect.module_eq
  obtain ⟨hstepless, rfl⟩ := Module.addBody_ok hbody
  have hagrees : Sequence.Agrees (numberIn m₂.prologue) m₂.prologue := by
    refine Sequence.agrees_numberIn ?_
    rw [hm₂]
    exact (ho.statement _).registeredAll _ _
  have hrunner := (hlayout _ hagrees).runner_eq guard _ hloop hguarded
  refine ⟨f, counters, rfl, rfl, rfl, hlayout, ⟨names₂, ?_⟩, ?_, ?_, heffect.numbered, ?_⟩
  · rw [hrunner, hm₂]
    rfl
  · exact heffect.taken.trans (by rw [htaken])
  · obtain ⟨hcounters, hcfree⟩ := heffect.fresh
    dsimp only at htaken hcfree
    rw [htaken] at hcfree
    refine ⟨List.nodup_append.mpr ⟨hnodup, hcounters, ?_⟩, fun x hx => ?_⟩
    · rintro x hx _ hc rfl
      exact hcfree x hc (List.mem_append_left _ (List.mem_reverse.mpr hx))
    · rcases List.mem_append.mp hx with hx | hx
      · exact hfree x hx
      · exact fun hmem => hcfree x hx (List.mem_append_right _ hmem)
  · rwa [hrunner] at hstepless

end Stimulus
