import Stimulus.Proofs.Sequence.Graph

/-!
# Conservation of statements

Compilation takes a script apart and spreads its statements over states. Nothing is lost on the
way and nothing is done twice: read state by state, the arms of the case hold the plain statements
of the script in their order, and otherwise only what the compiler has added. What it adds can be
told by its looks, being an assignment to a variable of the sequence or a conditional.

The number of states can be told from the script as well. Every wait, loop and conditional has its
**cost**, and a script that ends with plain statements needs one more state for these.

## Main definitions

* `Statement.cost`, `costOf`, `endsPlainly`
* `Statement.isGenerated`, the looks of what the compiler adds

## Main results

* `Sequence.Layout.length_finish`: the number of states of a laid out script.
* `Sequence.Layout.filter_arms`: the arms hold the plain statements of the script.
* `Module.sequence_conserves`: both for every sequence that a module accepts.
-/

namespace Stimulus

/-! ### The cost of scripts -/

mutual

/-- The number of states that a statement of a script adds to a flow. -/
def Statement.cost : Statement → Nat
  | .command _ => 0
  | .list items => costOf items
  | .branch _ yes no => if no.isEmpty then 2 + costOf yes else 3 + costOf yes + costOf no
  | .block (.raw _) _ => 0
  | .block (.onEvent _) _ => 0
  | .block (.repeatLoop _) body => 3 + costOf body
  | .block (.whileLoop _) body => 3 + costOf body
  | .block (.forLoop ..) body => 3 + costOf body
  | .select _ _ => 0
  | .step (.delay _) => 1
  | .step (.signal _) => 1
  | .step (.mark ..) => 0

/-- The number of states that a script adds to a flow. -/
def costOf : List Statement → Nat
  | [] => 0
  | s :: rest => s.cost + costOf rest

end

/-- Costs add up. -/
@[simp] theorem costOf_append (xs ys : List Statement) :
    costOf (xs ++ ys) = costOf xs + costOf ys := by
  induction xs with
  | nil => rw [List.nil_append, costOf, Nat.zero_add]
  | cons x xs ih => rw [List.cons_append, costOf, costOf, ih, Nat.add_assoc]

/-- Whether plain statements or marks follow the last wait, loop or conditional of a script that
stands on top. -/
def endsPlainly (items : List Statement) : Bool :=
  (leavesOf items).getLast?.any (·.placed?.isSome)

namespace Statement

/-- What is placed costs nothing. -/
theorem cost_of_placed? {s t : Statement} (h : s.placed? = some t) : s.cost = 0 := by
  unfold placed? at h
  split at h
  all_goals first | rfl | cases h

/-- A wait costs one state, and it is not placed. -/
theorem cost_of_waitTail? {number : Event → Nat} {next : Nat} {s : Statement}
    {tail : Sequence.Tail} (h : s.waitTail? number next = some tail) :
    s.cost = 1 ∧ s.placed? = none ∧ s.leaves = [s] := by
  unfold waitTail? at h
  split at h
  all_goals cases h
  all_goals exact ⟨rfl, rfl, rfl⟩

/-- What is placed is a leaf. -/
theorem leaves_of_placed? {s t : Statement} (h : s.placed? = some t) : s.leaves = [s] := by
  unfold placed? at h
  split at h
  all_goals first | rfl | cases h

end Statement

namespace Sequence

/-- A loop costs three states besides those of its body, and it is not placed. -/
theorem LoopShape.cost_eq {s : Statement} {prepare next : List Work} {condition : Expr .bool}
    {body : List Statement} {own : List String}
    (h : LoopShape s prepare condition next body own) :
    s.cost = 3 + costOf body ∧ s.placed? = none ∧ s.leaves = [s] := by
  cases h <;> exact ⟨by rw [Statement.cost], rfl, rfl⟩

/-- **A laid out script closes as many states as it costs.** -/
theorem Layout.length_closed {number : Event → Nat} {base : Nat} {pending : List Work}
    {items : List Statement} {counters : List String} {f : Fragment}
    (h : Layout number base pending items counters f) : f.closed.length = costOf items := by
  induction h with
  | nil => rfl
  | list _ ih => rw [ih, costOf_append, costOf, Statement.cost]
  | work hplaced _ ih => rw [ih, costOf, Statement.cost_of_placed? hplaced, Nat.zero_add]
  | wait htail _ ih =>
      rw [Fragment.length_andThen, Fragment.length_closing, ih, costOf,
        (Statement.cost_of_waitTail? htail).1]
  | when _ _ ihyes ih =>
      rw [Fragment.length_andThen, Fragment.length_when, ih, ihyes, costOf, Statement.cost,
        if_pos List.isEmpty_nil, Nat.add_comm 2]
  | @either _ _ _ _ no _ _ _ _ _ _ _ hno _ _ _ ihyes ihno ih =>
      have hne : ¬ no.isEmpty = true := fun h => hno (List.isEmpty_iff.mp h)
      rw [Fragment.length_andThen, Fragment.length_either, ih, ihyes, ihno, costOf,
        Statement.cost, if_neg hne]
      omega
  | loop hshape _ _ ihbody ih =>
      rw [Fragment.length_andThen, Fragment.length_loop, ih, ihbody, costOf, hshape.cost_eq.1,
        Nat.add_comm 3]

/-! ### The last state -/

/-- Whether no work is pending after a script, if `empty` says so for before. -/
def emptied (empty : Bool) (items : List Statement) : Bool :=
  ((leavesOf items).getLast?.map (·.placed?.isNone)).getD empty

/-- A leaf decides what is pending, unless more leaves follow. -/
theorem emptied_cons {s : Statement} (hs : s.leaves = [s]) (empty : Bool)
    (rest : List Statement) : emptied empty (s :: rest) = emptied s.placed?.isNone rest := by
  rw [emptied, emptied, leavesOf, hs, List.singleton_append, List.getLast?_cons]
  cases (leavesOf rest).getLast? <;> rfl

/-- **Work is pending** after a script exactly if its last leaf is placed. -/
theorem Layout.pending_isEmpty {number : Event → Nat} {base : Nat} {pending : List Work}
    {items : List Statement} {counters : List String} {f : Fragment}
    (h : Layout number base pending items counters f) :
    f.pending.isEmpty = emptied pending.isEmpty items := by
  induction h with
  | nil => rfl
  | @list _ _ items rest _ _ _ ih =>
      have hleaves : leavesOf (items ++ rest) = leavesOf (.list items :: rest) := by
        rw [leavesOf_append, leavesOf, Statement.leaves]
      rw [ih, emptied, emptied, hleaves]
  | work hplaced _ ih =>
      rw [ih, emptied_cons (Statement.leaves_of_placed? hplaced), hplaced,
        List.isEmpty_eq_false_iff.mpr (List.append_ne_nil_of_right_ne_nil _ (List.cons_ne_nil _ _))]
      rfl
  | wait htail _ ih =>
      obtain ⟨-, hplaced, hleaves⟩ := Statement.cost_of_waitTail? htail
      rw [emptied_cons hleaves, hplaced]
      exact ih
  | @when _ _ condition yes _ _ _ _ _ _ _ _ ih =>
      have hleaves : (Statement.branch condition yes []).leaves = [.branch condition yes []] := rfl
      exact ih.trans (emptied_cons hleaves _ _).symm
  | @either _ _ condition yes no _ _ _ _ _ _ _ _ _ _ _ _ _ ih =>
      have hleaves : (Statement.branch condition yes no).leaves = [.branch condition yes no] := rfl
      exact ih.trans (emptied_cons hleaves _ _).symm
  | loop hshape _ _ _ ih =>
      obtain ⟨-, hplaced, hleaves⟩ := hshape.cost_eq
      rw [emptied_cons hleaves, hplaced]
      exact ih

/-- Work is pending after a whole script if it ends plainly. -/
theorem emptied_true (items : List Statement) : emptied true items = !endsPlainly items := by
  rw [emptied, endsPlainly]
  cases (leavesOf items).getLast? with
  | none => rfl
  | some s =>
      rw [Option.map_some, Option.getD_some, Option.any_some]
      cases s.placed? <;> rfl

/-- **The number of states** of a laid out script. -/
theorem Layout.length_finish {number : Event → Nat} {items : List Statement}
    {counters : List String} {f : Fragment} (h : Layout number 0 [] items counters f) :
    f.finish.length = 1 + costOf items + if endsPlainly items then 1 else 0 := by
  have hpending : f.pending.isEmpty = !endsPlainly items := by
    rw [h.pending_isEmpty, List.isEmpty_nil, emptied_true]
  rw [Fragment.finish, hpending, ← h.length_closed]
  cases endsPlainly items with
  | false => simp [Nat.add_comm]
  | true =>
      simp
      omega

end Sequence

/-! ### What the compiler adds -/

/-- The looks of what the compiler adds to the states of a sequence: an assignment to one of the
given variables, an increment of one, or a conditional. A script's own conditionals are never
left as they are. -/
def Statement.isGenerated (names : List String) : Statement → Bool
  | .command (.assign target _) => names.contains target
  | .command (.increment target) => names.contains target
  | .branch .. => true
  | _ => false

namespace Sequence

/-- A tail is generated, unless it finishes. -/
theorem Tail.isGenerated (control : SequenceControl) (counters : List String) {tail : Tail}
    (h : tail ≠ .finish) :
    ∀ t ∈ tail.statements control, t.isGenerated (control.names ++ counters) = true := by
  cases tail with
  | finish => exact absurd rfl h
  | _ =>
      simp [statements, awaitEvent, goto, runOn, Statement.isGenerated, Variable.assign,
        SequenceControl.names]

/-- What keeps a counter is generated. -/
theorem isGenerated_of_keeps (control : SequenceControl) {counters : List String} {c : Command}
    (h : Keeps counters c) :
    (Statement.command c).isGenerated (control.names ++ counters) = true := by
  obtain ⟨x, hx, rfl | rfl⟩ := h
  all_goals simp [Statement.isGenerated, hx]

/-- Without what is generated, work is statements of the script. -/
theorem filter_work {control : SequenceControl} {counters : List String} {ws : List Work}
    (h : ∀ c, Work.counting c ∈ ws → Keeps counters c) :
    (ws.map (·.statement)).filter (!·.isGenerated (control.names ++ counters))
      = (ws.filterMap (·.user?)).filter (!·.isGenerated (control.names ++ counters)) := by
  induction ws with
  | nil => rfl
  | cons w rest ih =>
      have hrest := ih fun c hc => h c (List.mem_cons_of_mem _ hc)
      cases w with
      | placed s =>
          have huser : (Work.placed s).user? = some s := rfl
          rw [List.map_cons, List.filterMap_cons_some huser, List.filter_cons, List.filter_cons,
            hrest, Work.statement]
      | counting c =>
          have huser : (Work.counting c).user? = none := rfl
          have hc := isGenerated_of_keeps control (h c List.mem_cons_self)
          rw [List.map_cons, List.filterMap_cons_none huser, ← hrest]
          exact List.filter_cons_of_neg (by simp [Work.statement, hc])

/-- Without what is generated, a state that does not finish holds the statements of the script
that are its work. -/
theorem State.filter_statements (control : SequenceControl) {counters : List String} {s : State}
    (htail : s.tail ≠ .finish) (hcounting : ∀ c, Work.counting c ∈ s.work → Keeps counters c) :
    (s.statements control).filter (!·.isGenerated (control.names ++ counters))
      = (s.work.filterMap (·.user?)).filter (!·.isGenerated (control.names ++ counters)) := by
  have htails : (s.tail.statements control).filter
      (!·.isGenerated (control.names ++ counters)) = [] := by
    rw [List.filter_eq_nil_iff]
    intro t ht
    rw [Tail.isGenerated control counters htail t ht]
    exact Bool.false_ne_true
  rw [statements, List.filter_append, htails, List.append_nil, filter_work hcounting]

/-- Without what is generated, states that do not finish hold the statements of the script that
are their work. -/
theorem filter_states (control : SequenceControl) {counters : List String} {states : List State}
    (htail : ∀ s ∈ states, s.tail ≠ .finish)
    (hcounting : ∀ c, Work.counting c ∈ states.flatMap (·.work) → Keeps counters c) :
    (states.flatMap (·.statements control)).filter (!·.isGenerated (control.names ++ counters))
      = ((states.flatMap (·.work)).filterMap (·.user?)).filter
          (!·.isGenerated (control.names ++ counters)) := by
  induction states with
  | nil => rfl
  | cons s rest ih =>
      rw [List.forall_mem_cons] at htail
      have hs := State.filter_statements control htail.1 fun c hc =>
        hcounting c (List.mem_append_left _ hc)
      have hrest := ih htail.2 fun c hc => hcounting c (List.mem_append_right _ hc)
      rw [List.flatMap_cons, List.filter_append, hs, hrest, List.flatMap_cons,
        List.filterMap_append, List.filter_append]

/-- The bodies of the arms of a flow are the statements of its states. -/
theorem Flow.map_body_arms (control : SequenceControl) (flow : Flow) :
    (flow.arms control).map (·.body) = flow.map (·.statements control) := by
  rw [arms, List.map_map]
  conv_rhs => rw [← List.zipIdx_map_fst 0 flow, List.map_map]
  rfl

/-- **The arms hold the plain statements of the script**, if what is generated is left out, and
with it the last arm. -/
theorem Layout.filter_arms {number : Event → Nat} {items : List Statement}
    {counters : List String} {f : Fragment} (h : Layout number 0 [] items counters f)
    (control : SequenceControl) :
    ((f.finish.arms control).dropLast.flatMap (·.body)).filter
        (!·.isGenerated (control.names ++ counters))
      = (plainOf items).filter (!·.isGenerated (control.names ++ counters)) := by
  obtain ⟨g, hg, hfinish⟩ := h.sound.finish_eq
  have hwork : g.closed.flatMap (·.work) = f.work := by
    rw [← f.finish_work, hfinish, List.flatMap_append]
    exact (List.append_nil _).symm
  have harms : (f.finish.arms control).dropLast.flatMap (·.body)
      = g.closed.flatMap (·.statements control) := by
    rw [List.flatMap_def, List.map_dropLast, Flow.map_body_arms, ← List.map_dropLast,
      ← List.flatMap_def, hfinish, List.dropLast_concat]
  have hcounting (c : Command) (hc : Work.counting c ∈ g.closed.flatMap (·.work)) :
      Keeps counters c := by
    rw [hwork] at hc
    exact (h.counting_mem hc).resolve_left List.not_mem_nil
  rw [harms, filter_states control hg.unfinished hcounting, hwork, h.user_eq]
  rfl

/-- **Conserved statements.** Every arm of the case over a flow is work of its state, followed by a
tail. The statements of the script among the work are the plain statements of the script, in
order. All else is added: the other work keeps counters of the sequence, and a tail consists of
assignments to its variables and of conditionals, except for the last arm, which finishes. So the
plain statements of the script are also what is left of the arms without what looks generated. -/
structure Conserves (items : List Statement) (control : SequenceControl) (flow : Flow)
    (counters : List String) : Prop where
  arm : ∀ (n : Nat) (s : State), flow[n]? = some s → (flow.arms control)[n]? = some
    (Arm.mk (some ⟨_, .integer n⟩) (s.work.map (·.statement) ++ s.tail.statements control))
  user : (flow.flatMap (·.work)).filterMap (·.user?) = plainOf items
  counting : ∀ c, Work.counting c ∈ flow.flatMap (·.work) → Keeps counters c
  tails : ∀ (n : Nat) (s : State), flow[n]? = some s → n < flow.length - 1 →
    ∀ t ∈ s.tail.statements control, t.isGenerated control.names = true
  finish : (flow.arms control)[flow.length - 1]? = some
    (Arm.mk (some ⟨_, .integer (flow.length - 1 : Nat)⟩) [.command .finish])
  left : ((flow.arms control).dropLast.flatMap (·.body)).filter
      (!·.isGenerated (control.names ++ counters))
    = (plainOf items).filter (!·.isGenerated (control.names ++ counters))

/-- The flow of a laid out script conserves its statements. -/
theorem Layout.conserves {number : Event → Nat} {items : List Statement}
    {counters : List String} {f : Fragment} (h : Layout number 0 [] items counters f)
    (control : SequenceControl) : Conserves items control f.finish counters where
  arm n s hs := Flow.arms_getElem? control hs
  user := by
    rw [f.finish_work, h.user_eq]
    rfl
  counting c hc := by
    rw [f.finish_work] at hc
    exact (h.counting_mem hc).resolve_left List.not_mem_nil
  tails n s hs hn t ht := by
    have htail : s.tail ≠ .finish := fun hfin => Nat.ne_of_lt hn (h.complete.only_last n s hs hfin)
    have := Tail.isGenerated control [] htail t ht
    rwa [List.append_nil] at this
  finish := Flow.arms_getElem? control h.complete.finish
  left := h.filter_arms control

end Sequence

/-! ### Accepted sequences -/

open Sequence

/-- **Statements are conserved.** Whatever was done to a module before, a sequence that it accepts
is run by a case whose arms hold the plain statements of the script, each once and in order, and
besides them only what keeps the variables of the sequence. The number of states follows from the
script. -/
theorem Module.sequence_conserves {options : Options} {present name : String} {m₀ m' : Module}
    (h₀ : Module.new? options present name = .ok m₀) (history : List Operation)
    {guard : Expr .bool} {items : List Statement} {r : CompiledSequence}
    (h : Module.sequence guard items (m₀.after history) = .ok r m') :
    ∃ flow counters,
      m'.body = (m₀.after history).body ++ [runner guard r.control flow] ∧
      (∀ x ∈ counters, x ∉ r.control.names ∧ x ∉ (m₀.after history).names.taken) ∧
      Conserves items r.control flow counters ∧
      r.states = (flow.arms r.control).length ∧
      r.states = 1 + costOf items + if endsPlainly items then 1 else 0 := by
  obtain ⟨f, counters, hbody, -, hstates, -, hlayout, hfresh⟩ := sequence_layout h₀ history h
  refine ⟨f.finish, counters, hbody, hfresh, hlayout.conserves r.control, ?_, ?_⟩
  · rw [hstates, Flow.length_arms]
  · rw [hstates, hlayout.length_finish]

/-- A counting loop with a mark and a wait in it, a conditional with an alternative in a list, and
commands around them. -/
theorem Module.sequence_conserves_nested :
    let toggle (name : String) : Statement := .command (.toggle name)
    let script : List Statement :=
      [toggle "a",
        .block (.forLoop (.assign "i" ⟨_, .integer 0⟩) (.ident "more") (.increment "i"))
          [.step (.mark ⟨"m"⟩ "here"), .wait (.real 1.0)],
        .branch (.ident "c") [toggle "b"] [.list [toggle "d"]],
        toggle "e"]
    ∃ m₀ m' r flow counters,
      Module.new? .standard "" "bench" = .ok m₀ ∧
      Module.sequence (.bool true) script (m₀.after []) = .ok r m' ∧
      Conserves script r.control flow counters ∧ r.states = 9 ∧
      plainOf script = [toggle "a", .command (.assign "i" ⟨_, .integer 0⟩), toggle "m",
        .command (.increment "i"), toggle "b", toggle "d", toggle "e"] := by
  intro toggle script
  obtain ⟨m₀, h₀⟩ : ∃ m₀, Module.new? .standard "" "bench" = .ok m₀ := ⟨_, rfl⟩
  have hvalue : Build.value? (Module.sequence (.bool true) script) m₀ = some ⟨⟨1⟩, 9, 8⟩ := by
    rw [eq_of_new? h₀]
    rfl
  obtain ⟨m', h⟩ := Build.value?_eq_some.mp hvalue
  obtain ⟨flow, counters, -, -, hconserves, -, hstates⟩ := Module.sequence_conserves h₀ [] h
  exact ⟨m₀, m', _, flow, counters, h₀, h, hconserves, hstates, rfl⟩

end Stimulus
