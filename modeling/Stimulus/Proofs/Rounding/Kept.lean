import Stimulus.Proofs.Rounding.Expression
import Stimulus.Proofs.Sequence.Accepted

/-!
# Texts in modules

The texts that a module holds are those that its registrations are made with, numbered names, and
the names of the variables that control sequences. So what holds of all these texts holds of all
texts in the module. A sequence is compiled without making a text of its own.

## Main results

* `Sequence.Layout.forall_texts`: what holds of the texts of a script and of the names of its
  counters holds of the texts of the compiled script.
* `Registration.build_allTexts`, `Registration.runAll_allTexts`: registrations keep what holds of
  all texts.
-/

namespace Stimulus

open Build

variable {P : String → Prop}

/-! ### Compiled scripts -/

/-- The texts of a comparison are those of its operands, in whichever order they are written. -/
theorem Expr.mem_texts_comparison {k : Kind} {op : Comparison} {defined : op.definedOn k = true}
    {a b : Expr k} {t : String} :
    t ∈ (Expr.comparison op defined a b).texts ↔ t ∈ a.texts ∨ t ∈ b.texts := by
  unfold comparison
  split
  · rw [texts, List.mem_append, or_comm]
  · rw [texts, List.mem_append]

namespace Sequence

/-- A delay in seconds is written with the texts of the delay in microseconds. -/
theorem texts_seconds (microseconds : Expr .real) :
    (seconds microseconds).texts ⊆ microseconds.texts := by
  unfold seconds
  split
  · exact List.nil_subset _
  · exact List.Subset.refl _

/-- The texts that a tail is written with, apart from the names of the variables that control the
sequence. -/
def Tail.texts : Tail → List String
  | .delay seconds _ => seconds.texts
  | .branch condition _ _ => condition.texts
  | .signal _ _ => []
  | .jump _ => []
  | .finish => []

/-- The texts that pieces of work are written with. -/
def textsOfWork (work : List Work) : List String :=
  work.flatMap (·.statement.texts)

/-- The texts that states are written with, apart from the names of the variables that control the
sequence. -/
def textsOfStates (states : List State) : List String :=
  states.flatMap fun s => textsOfWork s.work ++ s.tail.texts

/-- The texts of two lists of states in a row. -/
@[simp] theorem textsOfStates_append (xs ys : List State) :
    textsOfStates (xs ++ ys) = textsOfStates xs ++ textsOfStates ys := by
  simp [textsOfStates]

/-- The texts of states, the first one apart. -/
@[simp] theorem textsOfStates_cons (s : State) (states : List State) :
    textsOfStates (s :: states) = textsOfWork s.work ++ s.tail.texts ++ textsOfStates states := by
  simp [textsOfStates]

/-- No states have no texts. -/
@[simp] theorem textsOfStates_nil : textsOfStates [] = [] :=
  rfl

/-- The texts of two lists of pieces of work in a row. -/
@[simp] theorem textsOfWork_append (xs ys : List Work) :
    textsOfWork (xs ++ ys) = textsOfWork xs ++ textsOfWork ys := by
  simp [textsOfWork]

/-- The texts of pieces of work, the first one apart. -/
@[simp] theorem textsOfWork_cons (w : Work) (ws : List Work) :
    textsOfWork (w :: ws) = w.statement.texts ++ textsOfWork ws := by
  simp [textsOfWork]

/-- No work has no texts. -/
@[simp] theorem textsOfWork_nil : textsOfWork [] = [] :=
  rfl

/-- The texts of the fragment of a script. -/
def Fragment.texts (f : Fragment) : List String :=
  textsOfStates f.closed ++ textsOfWork f.pending

/-- The texts of a fragment that goes on with another one. -/
theorem Fragment.texts_andThen (f g : Fragment) :
    (f.andThen g).texts = textsOfStates f.closed ++ g.texts := by
  simp [texts, andThen]

/-- The texts of a state that is closed by a wait. -/
theorem textsOfStates_closing (pending : List Work) (tail : Tail) :
    textsOfStates (Fragment.closing pending tail).closed = textsOfWork pending ++ tail.texts := by
  simp [Fragment.closing]

/-- The texts of a conditional without an alternative. -/
theorem textsOfStates_when (base : Nat) (pending : List Work) (condition : Expr .bool)
    (y : Fragment) :
    textsOfStates (Fragment.when base pending condition y).closed
      = textsOfWork pending ++ condition.texts ++ y.texts := by
  simp [Fragment.when, Fragment.texts, Tail.texts]

/-- The texts of a conditional with an alternative. -/
theorem textsOfStates_either (base : Nat) (pending : List Work) (condition : Expr .bool)
    (y n : Fragment) :
    textsOfStates (Fragment.either base pending condition y n).closed
      = textsOfWork pending ++ condition.texts ++ y.texts ++ n.texts := by
  simp [Fragment.either, Fragment.texts, Tail.texts]

/-- The texts of a loop. -/
theorem textsOfStates_loop (base : Nat) (pending : List Work) (condition : Expr .bool)
    (b : Fragment) (next : List Work) :
    textsOfStates (Fragment.loop base pending condition b next).closed
      = textsOfWork pending ++ condition.texts ++ b.texts ++ textsOfWork next := by
  simp [Fragment.loop, Fragment.texts, Tail.texts]

/-- The texts of a finished flow are those of its fragment. -/
theorem Fragment.texts_finish (f : Fragment) : textsOfStates f.finish = f.texts := by
  unfold finish
  split
  case isTrue h => simp [texts, Tail.texts, List.isEmpty_iff.mp h]
  case isFalse => simp [texts, Tail.texts]

/-- A statement that stands for one of a script is written with its texts. -/
theorem texts_of_placed? {s t : Statement} (h : s.placed? = some t) : t.texts = s.texts := by
  unfold Statement.placed? at h
  split at h
  · cases h; rfl
  · cases h; rfl
  · cases h; rfl
  · cases h

/-- The tail for a wait is written with the texts of the wait. -/
theorem texts_of_waitTail? {number : Event → Nat} {next : Nat} {s : Statement} {tail : Tail}
    (h : s.waitTail? number next = some tail) : tail.texts ⊆ s.texts := by
  unfold Statement.waitTail? at h
  split at h
  · cases h
    exact texts_seconds _
  · cases h
    exact List.nil_subset _
  · cases h

/-- What holds of the texts of a loop and of the name of its counter holds of the texts of what it
is laid out as. -/
theorem LoopShape.forall_texts {s : Statement} {prepare : List Work} {condition : Expr .bool}
    {next : List Work} {body : List Statement} {own : List String}
    (h : LoopShape s prepare condition next body own) (hs : ∀ t ∈ s.texts, P t)
    (hown : ∀ t ∈ own, P t) :
    (∀ t ∈ textsOfWork prepare, P t) ∧ (∀ t ∈ condition.texts, P t) ∧
      (∀ t ∈ textsOfWork next, P t) ∧ ∀ t ∈ textsOf body, P t := by
  cases h with
  | whileLoop condition body =>
      obtain ⟨hcondition, hbody⟩ := List.forall_mem_append.mp hs
      exact ⟨by simp, hcondition, by simp, hbody⟩
  | forLoop start condition next body =>
      simp only [Statement.texts, Head.texts, List.forall_mem_append] at hs
      obtain ⟨⟨⟨hstart, hcondition⟩, hnext⟩, hbody⟩ := hs
      refine ⟨?_, hcondition, ?_, hbody⟩
      · simpa [textsOfWork, Work.statement, Statement.texts] using hstart
      · simpa [textsOfWork, Work.statement, Statement.texts] using hnext
  | repeatLoop count body counter =>
      obtain ⟨hcount, hbody⟩ := List.forall_mem_append.mp hs
      have hcounter := List.forall_mem_singleton.mp hown
      refine ⟨?_, fun t ht => ?_, ?_, hbody⟩
      · simpa [textsOfWork, Work.statement, Statement.texts, Variable.assign, Command.texts,
          Value.texts, Expr.texts] using hcounter
      · rcases Expr.mem_texts_comparison.mp ht with ht | ht
        · obtain rfl := List.mem_singleton.mp ht
          exact hcounter
        · exact hcount t ht
      · simpa [textsOfWork, Work.statement, Statement.texts, Variable.increment,
          Command.texts] using hcounter

/-- **A compiled script** has no text of its own: what holds of the texts of the script, of the work
that was pending before it and of the names of its counters holds of its texts. -/
theorem Layout.forall_texts {number : Event → Nat} {base : Nat} {pending : List Work}
    {items : List Statement} {counters : List String} {f : Fragment}
    (h : Layout number base pending items counters f) (hpending : ∀ t ∈ textsOfWork pending, P t)
    (hitems : ∀ t ∈ textsOf items, P t) (hcounters : ∀ t ∈ counters, P t) :
    ∀ t ∈ f.texts, P t := by
  have hnothing : ∀ t ∈ textsOfWork [], P t := by simp
  induction h with
  | nil => simpa [Fragment.texts] using hpending
  | list _ ih =>
      refine ih hpending ?_ hcounters
      simpa [textsOf, Statement.texts] using hitems
  | work hplaced _ ih =>
      simp only [textsOf, List.forall_mem_append] at hitems
      refine ih ?_ hitems.2 hcounters
      rw [textsOfWork_append, List.forall_mem_append]
      refine ⟨hpending, ?_⟩
      simpa [Work.statement, texts_of_placed? hplaced] using hitems.1
  | wait htail _ ih =>
      simp only [textsOf, List.forall_mem_append] at hitems
      rw [Fragment.texts_andThen, textsOfStates_closing]
      simp only [List.forall_mem_append]
      exact ⟨⟨hpending, fun t ht => hitems.1 t (texts_of_waitTail? htail ht)⟩,
        ih hnothing hitems.2 hcounters⟩
  | when _ _ ihyes ih =>
      simp only [textsOf, Statement.texts, List.forall_mem_append] at hitems hcounters
      obtain ⟨⟨⟨hcondition, hyes⟩, -⟩, hrest⟩ := hitems
      rw [Fragment.texts_andThen, textsOfStates_when]
      simp only [List.forall_mem_append]
      exact ⟨⟨⟨hpending, hcondition⟩, ihyes hnothing hyes hcounters.1⟩,
        ih hnothing hrest hcounters.2⟩
  | either _ _ _ _ ihyes ihno ih =>
      simp only [textsOf, Statement.texts, List.forall_mem_append] at hitems hcounters
      obtain ⟨⟨⟨hcondition, hyes⟩, hno⟩, hrest⟩ := hitems
      obtain ⟨⟨hcs, hds⟩, hes⟩ := hcounters
      rw [Fragment.texts_andThen, textsOfStates_either]
      simp only [List.forall_mem_append]
      exact ⟨⟨⟨⟨hpending, hcondition⟩, ihyes hnothing hyes hcs⟩, ihno hnothing hno hds⟩,
        ih hnothing hrest hes⟩
  | loop hshape _ _ ihbody ih =>
      simp only [textsOf, List.forall_mem_append] at hitems hcounters
      obtain ⟨⟨hown, hcs⟩, hds⟩ := hcounters
      obtain ⟨hprepare, hcondition, hnext, hbody⟩ := hshape.forall_texts hitems.1 hown
      rw [Fragment.texts_andThen, textsOfStates_loop, textsOfWork_append]
      simp only [List.forall_mem_append]
      exact ⟨⟨⟨⟨⟨hpending, hprepare⟩, hcondition⟩, ihbody hnothing hbody hcs⟩, hnext⟩,
        ih hnothing hitems.2 hds⟩

/-- The statements of a tail are written with its texts and the names of the control. -/
theorem Tail.forall_texts {control : SequenceControl} {tail : Tail}
    (hcontrol : ∀ t ∈ control.names, P t) (htail : ∀ t ∈ tail.texts, P t) :
    ∀ t ∈ textsOf (tail.statements control), P t := by
  simp only [SequenceControl.names, List.forall_mem_cons] at hcontrol
  obtain ⟨htime, hstate, hrunning, hevent, -⟩ := hcontrol
  cases tail <;>
    simp_all [statements, awaitEvent, goto, runOn, textsOf, Statement.texts, Command.texts,
      Variable.assign, Value.texts, Expr.texts, Expr.add, Expr.now, texts, or_imp]

/-- The case over the states of a flow is written with their texts and the names of the control. -/
theorem forall_textsOfArms {control : SequenceControl} {flow : Flow}
    (hcontrol : ∀ t ∈ control.names, P t) (hflow : ∀ t ∈ textsOfStates flow, P t) :
    ∀ t ∈ textsOfArms (flow.arms control), P t := by
  intro t ht
  obtain ⟨arm, harm, ht⟩ := mem_textsOfArms.mp ht
  obtain ⟨⟨s, n⟩, hs, rfl⟩ := List.mem_map.mp harm
  have hmem : s ∈ flow := List.fst_mem_of_mem_zipIdx hs
  have hstate : ∀ t ∈ textsOfWork s.work ++ s.tail.texts, P t :=
    fun t ht => hflow t (List.mem_flatMap.mpr ⟨s, hmem, ht⟩)
  rw [List.forall_mem_append] at hstate
  rcases ht with ⟨v, hv, ht⟩ | ht
  · obtain rfl := Option.some.inj hv
    cases ht
  · have hbody : t ∈ textsOf (s.statements control) := ht
    rw [State.statements, textsOf_append, List.mem_append] at hbody
    rcases hbody with hwork | htail
    · refine hstate.1 t ?_
      obtain ⟨u, hu, ht⟩ := mem_textsOf.mp hwork
      obtain ⟨w, hw, rfl⟩ := List.mem_map.mp hu
      exact List.mem_flatMap.mpr ⟨w, hw, ht⟩
    · exact Tail.forall_texts hcontrol hstate.2 t htail

/-- The statement that runs a sequence is written with the texts of its guard, of its flow and with
the names of its control. -/
theorem forall_texts_runner {guard : Expr .bool} {control : SequenceControl} {flow : Flow}
    (hguard : ∀ t ∈ guard.texts, P t) (hcontrol : ∀ t ∈ control.names, P t)
    (hflow : ∀ t ∈ textsOfStates flow, P t) :
    ∀ t ∈ (runner guard control flow).texts, P t := by
  have harms := forall_textsOfArms hcontrol hflow
  simp only [SequenceControl.names, List.forall_mem_cons] at hcontrol
  obtain ⟨htime, hstate, hrunning, hevent, -⟩ := hcontrol
  have hset : ∀ t ∈ (Statement.command (control.running.assign (.bool false))).texts, P t := by
    simpa [Statement.texts, Variable.assign, Command.texts, Value.texts, Expr.texts] using hrunning
  have hread : ∀ t ∈ (Head.whileLoop control.running.expr).texts, P t := by
    simpa [Head.texts, Variable.expr, Expr.texts] using hrunning
  have hselect :
      ∀ t ∈ (Statement.select ⟨_, control.state.expr⟩ (flow.arms control)).texts, P t := by
    rw [Statement.texts, List.forall_mem_append]
    exact ⟨by simpa [Variable.expr, Value.texts, Expr.texts] using hstate, harms⟩
  rw [runner, loop, Statement.texts, List.forall_mem_append, List.forall_mem_append]
  refine ⟨⟨hguard, ?_⟩, by simp [textsOf]⟩
  rw [textsOf, textsOf, List.append_nil, Statement.texts, List.forall_mem_append, textsOf, textsOf,
    textsOf, List.append_nil, List.forall_mem_append]
  exact ⟨hread, hset, hselect⟩

end Sequence

/-! ### Modules -/

/-- Every text that a module holds satisfies `P`. -/
structure Module.AllTexts (P : String → Prop) (m : Module) : Prop where
  nets : ∀ n ∈ m.nets, P n.name
  parameters : ∀ p ∈ m.parameters, P p.name ∧ ∀ t ∈ p.default.texts, P t
  declared : ∀ v ∈ m.declaredVariables, P v.name ∧ ∀ t ∈ v.initial.texts, P t
  prologue : ∀ i ∈ m.prologue, ∀ t ∈ i.texts, P t
  body : ∀ s ∈ m.body, ∀ t ∈ s.texts, P t
  epilogue : ∀ s ∈ m.epilogue, ∀ t ∈ s.texts, P t

/-- The events for which a script waits are written with texts of the script. -/
theorem texts_of_mem_signalsOf {items : List Statement} {e : Event} (he : e ∈ signalsOf items) :
    e.texts ⊆ textsOf items := by
  induction items using partsOf.induct (fun s => e ∈ s.signals → e.texts ⊆ s.texts) with
  | case2 items ih he => exact ih (by rwa [Statement.signals_list] at he)
  | case3 condition yes no ihy ihn he =>
      rw [Statement.signals_branch, List.mem_append] at he
      intro t ht
      rw [Statement.texts, List.mem_append, List.mem_append]
      exact he.imp (fun he => .inr (ihy he ht)) fun he => ihn he ht
  | case5 count body ih he =>
      rw [Statement.signals_repeatLoop] at he
      exact List.Subset.trans (ih he) (List.subset_append_right _ _)
  | case6 condition body ih he =>
      rw [Statement.signals_whileLoop] at he
      exact List.Subset.trans (ih he) (List.subset_append_right _ _)
  | case7 start condition next body ih he =>
      rw [Statement.signals_forLoop] at he
      exact List.Subset.trans (ih he) (List.subset_append_right _ _)
  | case11 event he =>
      obtain rfl : e = event := by
        simpa [Statement.signals, Statement.parts, Part.signal?] using he
      exact List.Subset.refl _
  | case13 => simp at he
  | case14 s rest ih ihrest =>
      rw [signalsOf_cons, List.mem_append] at he
      rw [textsOf]
      rcases he with he | he
      · exact List.Subset.trans (ih he) (List.subset_append_left _ _)
      · exact List.Subset.trans (ihrest he) (List.subset_append_right _ _)
  -- The other statements wait for nothing.
  | _ => simp [Statement.signals, Statement.parts, Part.signal?] at *

namespace SequenceControl

variable {c : SequenceControl} (hcontrol : ∀ t ∈ c.names, P t)

include hcontrol

/-- The statement that lets a sequence run on is written with the names of its control. -/
theorem forall_texts_resumeOn (number : Nat) : ∀ t ∈ (c.resumeOn number).texts, P t := by
  simp only [names, List.forall_mem_cons] at hcontrol
  obtain ⟨-, -, hrunning, hevent, -⟩ := hcontrol
  rw [resumeOn, Statement.texts, List.forall_mem_append, List.forall_mem_append]
  refine ⟨⟨fun t ht => ?_, ?_⟩, by simp [textsOf]⟩
  · rcases Expr.mem_texts_comparison.mp ht with ht | ht
    · obtain rfl := List.mem_singleton.mp ht
      exact hevent
    · cases ht
  · simpa [textsOf, Statement.texts, Variable.assign, Command.texts, Value.texts,
      Expr.texts] using hrunning

/-- The driver of a sequence is written with the names of its control. -/
theorem forall_texts_driver (tolerance : Option Float) :
    ∀ t ∈ (c.driver tolerance).texts, P t := by
  have hresume := forall_texts_resumeOn hcontrol 0
  simp only [names, List.forall_mem_cons] at hcontrol
  rw [driver, Statement.texts, List.forall_mem_append, textsOf, textsOf, List.append_nil]
  refine ⟨?_, hresume⟩
  cases tolerance <;>
    simpa [Head.texts, timer, Event.after, Event.texts, Schedule.toList, Variable.expr,
      Expr.texts] using hcontrol.1

end SequenceControl

/-- Entering a sequence for an event adds the texts of the event and those of a statement that
resumes the sequence. -/
theorem forall_texts_enterSignal {index : Nat} {event : Event}
    (hresume : ∀ number, ∀ t ∈ (SequenceControl.resumeOn ⟨index⟩ number).texts, P t)
    (hevent : ∀ t ∈ event.texts, P t) (number : Nat) {prologue : List PrologueItem}
    (hprologue : ∀ i ∈ prologue, ∀ t ∈ i.texts, P t) :
    ∀ i ∈ (enterSignal index event number prologue).2, ∀ t ∈ i.texts, P t := by
  induction prologue generalizing number with
  | nil =>
      refine List.forall_mem_singleton.mpr ?_
      simp only [PrologueItem.texts, SharedEvent.first, textsOf, List.append_nil]
      exact List.forall_mem_append.mpr ⟨hevent, hresume number⟩
  | cons item rest ih =>
      obtain ⟨hitem, hrest⟩ := List.forall_mem_cons.mp hprologue
      cases item with
      | statement s => exact List.forall_mem_cons.mpr ⟨hitem, ih number hrest⟩
      | shared b =>
          rw [enterSignal]
          split
          · refine List.forall_mem_cons.mpr ⟨?_, hrest⟩
            simp only [PrologueItem.texts, SharedEvent.join] at hitem ⊢
            split
            · exact hitem
            · obtain ⟨hb, hclauses⟩ := List.forall_mem_append.mp hitem
              simp only [textsOf_append, textsOf, List.append_nil]
              exact List.forall_mem_append.mpr
                ⟨hb, List.forall_mem_append.mpr ⟨hclauses, hresume number⟩⟩
          · exact List.forall_mem_cons.mpr ⟨hitem, ih (number + 1) hrest⟩

/-- Registering signals adds the texts of their events and names of the control of the sequence. -/
theorem forall_texts_registeredAll {index : Nat} {prologue : List PrologueItem}
    {events : List Event} (hcontrol : ∀ t ∈ (SequenceControl.mk index).names, P t)
    (hprologue : ∀ i ∈ prologue, ∀ t ∈ i.texts, P t)
    (hevents : ∀ e ∈ events, ∀ t ∈ e.texts, P t) :
    ∀ i ∈ registeredAll index prologue events, ∀ t ∈ i.texts, P t := by
  induction events generalizing prologue with
  | nil => exact hprologue
  | cons e events ih =>
      obtain ⟨he, hevents⟩ := List.forall_mem_cons.mp hevents
      refine ih ?_ hevents
      exact forall_texts_enterSignal (SequenceControl.forall_texts_resumeOn hcontrol) he 1
        hprologue

section Registrations

variable (hnumbered : ∀ n, P (Name.anonymous n))
  (hcontrol : ∀ (c : SequenceControl), ∀ t ∈ c.names, P t)

include hnumbered hcontrol

/-- An accepted sequence keeps what holds of all texts. -/
theorem Sequence.Accepted.allTexts {guard : Expr .bool} {items : List Statement} {m m' : Module}
    {control : SequenceControl} {f : Fragment} {counters : List String}
    (h : Accepted guard items m control f counters m') (ho : Orderly m'.prologue)
    (hm : m.AllTexts P) (hguard : ∀ t ∈ guard.texts, P t) (hitems : ∀ t ∈ textsOf items, P t) :
    m'.AllTexts P := by
  have hcounters : ∀ t ∈ counters, P t := by
    intro t ht
    obtain ⟨n, rfl⟩ := h.numbered t ht
    exact hnumbered n
  have hflow : ∀ t ∈ textsOfStates f.finish, P t := by
    rw [Fragment.texts_finish]
    exact (h.layout _ (agrees_numberIn ho)).forall_texts (by simp) hitems hcounters
  have hnames := hcontrol control
  have hrunner := forall_texts_runner hguard hnames hflow
  obtain ⟨names, hm'⟩ := h.module_eq
  rw [hm']
  refine ⟨hm.nets, hm.parameters, ?_, ?_, ?_, hm.epilogue⟩
  · rw [List.forall_mem_append, List.forall_mem_append]
    refine ⟨⟨hm.declared, ?_⟩, ?_⟩
    · simp only [SequenceControl.names, List.forall_mem_cons] at hnames
      simp [SequenceControl.declarations, Value.texts, Expr.texts, hnames]
    · intro v hv
      obtain ⟨c, hc, rfl⟩ := List.mem_map.mp hv
      exact ⟨hcounters c hc, by simp [counterDeclaration, Value.texts, Expr.texts]⟩
  · refine forall_texts_registeredAll hnames ?_
      fun e he t ht => hitems t (texts_of_mem_signalsOf he ht)
    rw [List.forall_mem_append, List.forall_mem_singleton]
    exact ⟨hm.prologue, SequenceControl.forall_texts_driver hnames _⟩
  · rw [List.forall_mem_append, List.forall_mem_singleton]
    exact ⟨hm.body, hrunner⟩

/-- **A registration** that succeeds keeps what holds of all texts. -/
theorem Registration.build_allTexts {r : Registration} {m m' : Module} {u : Unit}
    (h : r.build m = .ok u m') (ho : Orderly m.prologue) (hm : m.AllTexts P)
    (hr : ∀ t ∈ r.texts, P t) : m'.AllTexts P := by
  cases r with
  | net name width direction =>
      obtain ⟨-, -, names, rfl⟩ := Module.declareNet_ok h
      refine { hm with nets := ?_ }
      rw [List.forall_mem_append, List.forall_mem_singleton]
      exact ⟨hm.nets, List.forall_mem_singleton.mp hr⟩
  | parameter name default =>
      obtain ⟨_, _, hd, hp⟩ := bind_ok.mp h
      obtain ⟨-, rfl⟩ := pure_ok.mp hp
      obtain ⟨-, -, names, rfl⟩ := Module.parameter_ok hd
      refine { hm with parameters := ?_ }
      rw [List.forall_mem_append, List.forall_mem_singleton]
      exact ⟨hm.parameters, List.forall_mem_cons.mp hr⟩
  | anonymous initial =>
      obtain ⟨v, _, hd, hp⟩ := bind_ok.mp h
      obtain ⟨-, rfl⟩ := pure_ok.mp hp
      obtain ⟨⟨n, hn⟩, -, -, names, rfl⟩ := Module.anonymousVariable_ok hd
      refine { hm with declared := ?_ }
      rw [List.forall_mem_append, List.forall_mem_singleton, hn]
      exact ⟨hm.declared, hnumbered n, hr⟩
  | named name initial =>
      obtain ⟨v, _, hd, hp⟩ := bind_ok.mp h
      obtain ⟨-, rfl⟩ := pure_ok.mp hp
      obtain ⟨-, -, -, names, rfl⟩ := Module.namedVariable_ok hd
      refine { hm with declared := ?_ }
      rw [List.forall_mem_append, List.forall_mem_singleton]
      exact ⟨hm.declared, List.forall_mem_cons.mp hr⟩
  | «prologue» s =>
      obtain ⟨-, rfl⟩ := Module.addPrologue_ok h
      refine { hm with prologue := ?_ }
      rw [List.forall_mem_append, List.forall_mem_singleton]
      exact ⟨hm.prologue, hr⟩
  | body s =>
      obtain ⟨-, rfl⟩ := Module.addBody_ok h
      refine { hm with body := ?_ }
      rw [List.forall_mem_append, List.forall_mem_singleton]
      exact ⟨hm.body, hr⟩
  | epilogue s =>
      obtain ⟨-, rfl⟩ := Module.addEpilogue_ok h
      refine { hm with epilogue := ?_ }
      rw [List.forall_mem_append, List.forall_mem_singleton]
      exact ⟨hm.epilogue, hr⟩
  | «sequence» guard items =>
      have ho' := (Registration.build_relates tolerates_orderly _).ok h ho
      obtain ⟨r, _, hseq, hp⟩ := bind_ok.mp h
      obtain ⟨-, rfl⟩ := pure_ok.mp hp
      obtain ⟨f, counters, -, -, ha⟩ := Module.sequence_ok ho hseq
      obtain ⟨hguard, hitems⟩ := List.forall_mem_append.mp hr
      exact ha.allTexts hnumbered hcontrol ho' hm hguard hitems
  | marker tag =>
      obtain rfl := modify_ok.mp h
      exact { hm with }

/-- **Registrations** that succeed keep what holds of all texts. -/
theorem Registration.runAll_allTexts {rs : List Registration} {m m' : Module} {u : Unit}
    (h : Registration.runAll rs m = .ok u m') (ho : Orderly m.prologue) (hm : m.AllTexts P)
    (hrs : ∀ r ∈ rs, ∀ t ∈ r.texts, P t) : m'.AllTexts P := by
  induction rs generalizing m with
  | nil =>
      obtain ⟨-, rfl⟩ := pure_ok.mp h
      exact hm
  | cons r rs ih =>
      rw [List.forall_mem_cons] at hrs
      obtain ⟨_, m₁, hbuild, hrest⟩ := bind_ok.mp h
      have ho₁ := (r.build_relates tolerates_orderly).ok hbuild ho
      exact ih hrest ho₁ (Registration.build_allTexts hnumbered hcontrol hbuild ho hm hrs.1) hrs.2

end Registrations

/-! ### Claimed names -/

/-- The name that a registration claims, if the caller chose one. -/
def Registration.claimed : Registration → List String
  | .net name _ _ => [name]
  | .parameter name _ => [name]
  | .named name _ => [name]
  | _ => []

/-- A registration that succeeds claims an identifier. -/
theorem Registration.isIdentifier_of_build {r : Registration} {m m' : Module} {u : Unit}
    (h : r.build m = .ok u m') : ∀ x ∈ r.claimed, Name.isIdentifier x = true := by
  cases r with
  | net name width direction =>
      exact List.forall_mem_singleton.mpr (Module.declareNet_ok h).1
  | parameter name default =>
      obtain ⟨_, _, hd, -⟩ := bind_ok.mp h
      exact List.forall_mem_singleton.mpr (Module.parameter_ok hd).1
  | named name initial =>
      obtain ⟨_, _, hd, -⟩ := bind_ok.mp h
      exact List.forall_mem_singleton.mpr (Module.namedVariable_ok hd).1
  | _ => exact List.forall_mem_nil _

/-- Registrations that succeed claim identifiers. -/
theorem Registration.isIdentifier_of_runAll {rs : List Registration} {m m' : Module} {u : Unit}
    (h : Registration.runAll rs m = .ok u m') :
    ∀ r ∈ rs, ∀ x ∈ r.claimed, Name.isIdentifier x = true := by
  induction rs generalizing m with
  | nil => exact List.forall_mem_nil _
  | cons r rs ih =>
      obtain ⟨_, m₁, hbuild, hrest⟩ := bind_ok.mp h
      exact List.forall_mem_cons.mpr ⟨isIdentifier_of_build hbuild, ih hrest⟩

end Stimulus
