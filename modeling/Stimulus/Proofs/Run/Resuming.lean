import Stimulus.Proofs.Run.Holding
import Stimulus.Proofs.Sequence.Graph
import Stimulus.Proofs.Sequence.Waits
import Stimulus.Statement.Text

/-!
# Shared events resume whoever waits

The shared blocks of a module list the sequences that wait for their events, and a sequence that
waits holds the number of the block. When the event of a block happens, exactly the sequences that
wait for it at that time are told to run on; a timer does so with its own sequence.

## Main definitions

* `Module.Shares`: what the shared blocks of a module are.
* `Module.WaitsOn`: a sequence waits for what happens, by the number it holds.

## Main results

* `Module.Hosts.shares`: the shared blocks of a module are what its scripts ask for.
* `Module.Hosts.resumes`: what happens resumes exactly the sequences that wait for it.
* `Module.sharedEvents_after`: both for every history of a module without a fault, and the blocks
  keep their numbers under all further operations.
-/

namespace Stimulus

open Machine Sequence

/-! ### Clauses -/

/-- The text of the clause that lets a sequence run on if it holds a number. -/
theorem SequenceControl.render_resumeOn (c : SequenceControl) (n depth : Nat) :
    (c.resumeOn n).render depth
      = Layout.line depth ("if( ( " ++ c.event.name ++ " )==( " ++ toString n ++ " ) )")
        ++ Layout.line (depth + 1) (c.running.name ++ " = 1;") := by
  have hcond : "if( " ++ (Expr.comparison .eq rfl c.event.expr (.integer n)).text ++ " )"
      = "if( ( " ++ c.event.name ++ " )==( " ++ toString n ++ " ) )" := by
    have htext : (Expr.comparison .eq rfl c.event.expr (.integer n)).text
        = "( " ++ c.event.name ++ " )" ++ "==" ++ "( " ++ toString n ++ " )" := rfl
    have hopen : "if( ( " = "if( " ++ "( " := rfl
    have hmiddle : " )==( " = " )" ++ ("==" ++ "( ") := rfl
    have hclose : " ) )" = " )" ++ " )" := rfl
    rw [htext, hopen, hmiddle, hclose]
    simp only [String.append_assoc]
  have hassign : (c.running.assign (.bool true)).text ++ ";" = c.running.name ++ " = 1;" := by
    have htext : (c.running.assign (.bool true)).text = c.running.name ++ " = " ++ "1" := rfl
    have hvalue : " = 1;" = " = " ++ ("1" ++ ";") := rfl
    rw [htext, hvalue]
    simp only [String.append_assoc]
  rw [← hcond, ← hassign]
  simp [resumeOn, Statement.render, renderEach, Layout.block, Statement.isEmpty, Statement.leaves]

/-- The text of a clause of a shared block, for the sequence with number `index`. -/
def clauseText (depth index number : Nat) : String :=
  Layout.line depth
      ("if( ( _$eventId_" ++ toString index ++ " )==( " ++ toString number ++ " ) )")
    ++ Layout.line (depth + 1) ("_$runSt_" ++ toString index ++ " = 1;")

/-- The text of the statement that lets the sequence with number `index` run on. -/
theorem SequenceControl.render_clause (depth index number : Nat) :
    (SequenceControl.resumeOn ⟨index⟩ number).render depth = clauseText depth index number := by
  have hopen : "if( ( _$eventId_" = "if( ( " ++ "_$eventId_" := rfl
  rw [SequenceControl.render_resumeOn, clauseText, hopen]
  simp only [SequenceControl.event, SequenceControl.running, String.append_assoc]

/-! ### Shared blocks -/

/-- A wait of a script and the number that an arm assigns for it: 0 for a time, and for an event the
position of its block among the shared ones, counted from 1. -/
def Module.Awaits (m : Module) : Option Event → Int → Prop
  | none, number => number = 0
  | some event, number => ∃ (j : Nat) (b : SharedEvent),
    (sharedEvents m.prologue)[j]? = some b ∧ b.event.text = event.text ∧ number = j + 1

/-- **What the shared blocks of a module are**, for the sequences that it hosts. -/
structure Module.Shares (m : Module) (cs : List Compiled) : Prop where
  /-- No two blocks are for the same event. -/
  texts : ((sharedEvents m.prologue).map (·.event.text)).Nodup
  /-- A block lists its sequences once, in increasing order. -/
  increasing : ∀ b ∈ sharedEvents m.prologue, b.waiters.Pairwise (· < ·)
  /-- A block lists the sequences whose scripts wait for its event at any depth. -/
  listed : ∀ b ∈ sharedEvents m.prologue, ∀ index, index ∈ b.waiters ↔
    ∃ c ∈ cs, c.control.index = index ∧
      anyNodeOf (Statement.awaitsText b.event.text) c.script = true
  /-- There is a block for each event that a script waits for at any depth. -/
  known : ∀ c ∈ cs, ∀ text, anyNodeOf (Statement.awaitsText text) c.script = true →
    ∃ b ∈ sharedEvents m.prologue, b.event.text = text
  /-- The clauses that a block holds are one for each sequence that it lists, in the same order, and
  they ask for the position of the block, counted from 1. -/
  clauses : ∀ (j : Nat) (b : SharedEvent), (sharedEvents m.prologue)[j]? = some b →
    ∀ depth, b.clauses.map (·.render depth)
      = b.waiters.map fun index => clauseText depth index (j + 1)
  /-- The body runs each sequence by a loop around a case. The numbers that the endings of its arms
  assign to the event variable are those of the waits of the script, in order. -/
  arms : ∀ c ∈ cs, ∃ arms tails,
    .branch c.guard
      [.block (.whileLoop c.control.running.expr)
        [.command (.assign c.control.running.name ⟨_, .bool false⟩),
          .select ⟨_, c.control.state.expr⟩ arms]] [] ∈ m.body ∧
    arms.getLast?.map (·.body) = some [.command .finish] ∧
    List.Forall₂ (fun a tail => ∃ work, a.body = work ++ tail ∧ IsEnding c.control tail)
      arms.dropLast tails ∧
    List.Forall₂ m.Awaits (waitsOf c.script) (assignedAll c.control.event.name tails.flatten)
  /-- When the event of a block happens, its clauses are run. -/
  fired : ∀ b ∈ sharedEvents m.prologue,
    (m.code cs).respond (.signal b.event.text) = b.clauses
  /-- When the timer of a sequence expires, the clause of its driver is run, which asks for 0. -/
  driven : ∀ c ∈ cs, ∃ clause,
    .block (.onEvent (c.control.timer m.options.timerTolerance)) [clause]
      ∈ prologueStatements m.prologue ∧
    (m.code cs).respond (.timer c.control.index) = [clause] ∧
    ∀ depth, clause.render depth = clauseText depth c.control.index 0

/-- A filter by a property that only one member of a list has. -/
theorem filter_eq_of_nodup {α β : Type} [DecidableEq β] {f : α → β} {xs : List α}
    (h : (xs.map f).Nodup) {x : α} (hx : x ∈ xs) : xs.filter (fun y => f y = f x) = [x] := by
  obtain ⟨before, after, rfl⟩ := List.append_of_mem hx
  rw [List.map_append, List.map_cons] at h
  obtain ⟨hbefore, hafter⟩ := List.nodup_middle.mp h |> List.nodup_cons.mp
  rw [List.mem_append, not_or] at hbefore
  have hnone {ys : List α} (hys : f x ∉ ys.map f) : ys.filter (fun y => f y = f x) = [] := by
    rw [List.filter_eq_nil_iff]
    intro y hy heq
    rw [decide_eq_true_eq] at heq
    exact hys (heq ▸ List.mem_map_of_mem hy)
  rw [List.filter_append, List.filter_cons, hnone hbefore.1, hnone hbefore.2]
  simp

/-- **The shared blocks of a module** are what its scripts ask for. -/
theorem Module.Hosts.shares {m : Module} {cs : List Compiled} (h : m.Hosts cs)
    (ho : Orderly m.prologue) : m.Shares cs where
  texts := ho.texts
  increasing b hb := h.waiters_increasing hb
  listed b hb index := by
    rw [h.mem_waiters hb]
    constructor
    · rintro ⟨c, hc, hindex, hwaits⟩
      exact ⟨c, hc, hindex, by rw [h.anyNodeOf_eq ho hc, hwaits]⟩
    · rintro ⟨c, hc, hindex, hwaits⟩
      rw [h.anyNodeOf_eq ho hc] at hwaits
      exact ⟨c, hc, hindex, hwaits⟩
  known c hc text hwaits := by
    rw [h.anyNodeOf_eq ho hc] at hwaits
    obtain ⟨event, hevent, htext⟩ := List.any_eq_true.mp hwaits
    obtain ⟨b, hb, hbtext⟩ := h.exists_block hc hevent
    exact ⟨b, hb, by rw [hbtext]; simpa using htext⟩
  clauses j b hb depth := by
    have hasks : b.clauses = _ := ho.clauses j b hb
    rw [hasks, List.map_map]
    exact List.map_congr_left fun index _ => SequenceControl.render_clause depth index (j + 1)
  arms c hc := by
    have hlayout := h.layout c hc _ (agrees_numberIn ho)
    have hpos (e : Event) : 1 ≤ numberIn m.prologue e := Nat.le_add_left 1 _
    refine ⟨c.flow.arms c.control, c.flow.dropLast.map (·.tail.statements c.control),
      h.runners.subset (List.mem_map_of_mem hc), (hlayout.charted hpos c.control).finish, ?_, ?_⟩
    · rw [List.forall₂_map_right_iff]
      exact (hlayout.arms_end hpos c.control).imp fun a s hs => ⟨_, hs.2⟩
    · rw [Compiled.flow, hlayout.assigned_event, List.forall₂_map_right_iff, List.forall₂_same]
      rintro (_ | event) hwait
      · exact rfl
      · have hevent : event ∈ signalsOf c.script := by
          rw [← filterMap_waitsOf]
          exact List.mem_filterMap.mpr ⟨some event, hwait, rfl⟩
        obtain ⟨b, hb, htext⟩ := h.exists_block hc hevent
        obtain ⟨j, hj⟩ := List.getElem?_of_mem hb
        exact ⟨j, b, hj, htext, congrArg Nat.cast (ho.numberIn_eq hj htext.symm)⟩
  fired b hb := by
    rw [Module.code]
    dsimp only
    rw [filter_eq_of_nodup ho.texts hb, List.flatMap_singleton]
  driven c hc := by
    have hdriver := h.drivers.subset (List.mem_map_of_mem hc)
    refine ⟨c.control.resumeOn 0, hdriver, ?_, fun depth =>
      SequenceControl.render_clause depth c.control.index 0⟩
    rw [Module.code]
    dsimp only
    rw [filter_eq_of_nodup h.nodup_indices hc, List.flatMap_singleton, Module.timed_eq hdriver]

/-! ### Resuming -/

/-- A sequence waits for what happens, by the number it holds: the position of the block for the
event, counted from 1, or 0 if its own timer expires. -/
def Module.WaitsOn {R : Type} (m : Module) (c : Compiled) (st : Store R) : Cause → Prop
  | .timer index => index = c.control.index ∧ st c.control.event.name = .integer 0
  | .signal text => ∃ (j : Nat) (b : SharedEvent), (sharedEvents m.prologue)[j]? = some b ∧
    b.event.text = text ∧ st c.control.event.name = .integer (j + 1)

section Resuming

variable {R : Type} {M : Meaning R} {m : Module} {cs : List Compiled}

/-- Something wakes a sequence exactly if the sequence waits for it by the number it holds. -/
theorem Module.Hosts.wakes_iff (h : m.Hosts cs) (ho : Orderly m.prologue) {c : Compiled}
    (hc : c ∈ cs) {st : Store R} {awaits : Option String} (hw : c.Waits m st awaits)
    (cause : Cause) :
    cause.wakes c.control.index awaits = true ↔ m.WaitsOn c st cause := by
  rw [← hw.called_iff h ho hc cause]
  cases cause with
  | timer index =>
      simp only [m.mem_calls_timer hc, WaitsOn]
      constructor
      · rintro ⟨_, ⟨rfl, rfl⟩, hnum⟩
        exact ⟨rfl, hnum⟩
      · rintro ⟨rfl, hnum⟩
        exact ⟨0, ⟨rfl, rfl⟩, hnum⟩
  | signal text =>
      simp only [Module.mem_calls_signal, WaitsOn]
      constructor
      · rintro ⟨_, ⟨b, hb, htext, -, rfl⟩, hnum⟩
        exact ⟨_, b, ho.getElem?_of_mem hb, htext, hnum⟩
      · rintro ⟨j, b, hj, rfl, hnum⟩
        have hb := List.mem_of_getElem? hj
        have hnumber : ((numberIn m.prologue b.event : Nat) : Int) = j + 1 :=
          congrArg Nat.cast (ho.numberIn_eq hj rfl)
        rw [← hnumber] at hnum
        obtain ⟨event, hevent, htext, -⟩ := hw.exists_signal h ho hc hb hnum
        have hwaits : c.waitsFor b.event.text = true :=
          List.any_eq_true.mpr ⟨event, hevent, by simp [htext]⟩
        exact ⟨_, ⟨b, hb, rfl, (h.mem_waiters hb).mpr ⟨c, hc, rfl, hwaits⟩, rfl⟩, hnum⟩

/-- The firing that is next in a run of the code of a module resumes the sequences that wait for
it. -/
def Module.Resumes (M : Meaning R) (m : Module) (cs : List Compiled) (st : Store R) (f : Firing R)
    (rest : List (Firing R)) : Prop :=
  ∃ st', Code.Silently M (m.code cs) (ownedBy cs) ⟨st, [], f :: rest⟩ ⟨st', turnsOf cs, rest⟩ ∧
    (∀ c ∈ cs, m.WaitsOn c st f.cause → st' c.control.running.name = .integer 1) ∧
    (∀ c ∈ cs, ¬ m.WaitsOn c st f.cause →
      st' c.control.running.name = st c.control.running.name) ∧
    ∀ x, (∀ c ∈ cs, x ≠ c.control.running.name) → st' x = f.change st x

/-- **What happens resumes exactly the sequences that wait for it**, in every run from the initial
values. -/
theorem Module.Hosts.resumes (h : m.Hosts cs) (ho : Orderly m.prologue) (hM : M.Lawful)
    (hignores : ∀ c ∈ cs, ∀ q ∈ partsOf c.script, M.Ignores (ownedBy cs) q)
    {firings : List (Firing R)} (hfirings : ∀ f ∈ firings, f.Apart (ownedBy cs)) {n : Nat}
    {st su : Store R} {es : List (Happening R)} {f : Firing R} {rest : List (Firing R)}
    (hsteps : Steps (Code.outward M (m.code cs) (ownedBy cs)) n
      ⟨M.initial m st, [], firings⟩ es ⟨su, [], f :: rest⟩) :
    m.Resumes M cs su f rest := by
  have hmem : f ∈ firings := (Code.firings_suffix_of_steps hsteps).subset List.mem_cons_self
  have hkeeps := (hfirings f hmem).writes su _ rfl
  have hholds := h.holds_of_steps ho hM hignores hfirings hsteps
  choose! awaits hwaits using fun c hc => (hholds c hc).waits
  obtain ⟨st', ⟨k, hrespond⟩, htold, hsame⟩ := h.steps_respond ho hM awaits
    (fun c hc => (hwaits c hc).congr (hkeeps _ (h.books hc).event_mem)) f.cause (turnsOf cs) rest
  have hfirst : Steps (Code.outward M (m.code cs) (ownedBy cs)) 1 ⟨su, [], f :: rest⟩ []
      ⟨f.change su, ((m.code cs).respond f.cause).map (.run 0) ++ turnsOf cs, rest⟩ := by
    rw [← m.reaction_eq]
    exact .single rfl
  refine ⟨st', ⟨1 + k, hfirst.trans hrespond⟩, fun c hc hon => ?_, fun c hc hoff => ?_, hsame⟩
  · rw [htold c hc, if_pos ((h.wakes_iff ho hc (hwaits c hc) f.cause).mpr hon)]
  · rw [htold c hc, if_neg fun hwoken =>
      hoff ((h.wakes_iff ho hc (hwaits c hc) f.cause).mp hwoken)]
    exact hkeeps _ (h.books hc).running_mem

end Resuming

/-! ### Histories -/

/-- Blocks and bodies persist under every history. -/
theorem Module.persist_after (m : Module) (history : List Operation) :
    Persist m.prologue (m.after history).prologue ∧ m.body <+: (m.after history).body := by
  refine after_keeps (I := fun m' => Persist m.prologue m'.prologue ∧ m.body <+: m'.body)
    (fun _ _ h => h) (fun r => ?_) ⟨.refl _, List.prefix_refl _⟩ history
  exact (r.build_relates tolerates_persist).mono fun _ _ _ hstep h =>
    ⟨h.1.trans hstep.1, h.2.trans hstep.2⟩

/-- **Shared events.** The shared blocks of a module without a fault are what the scripts of its
history ask for; further operations leave their positions, their events, their clauses and the arms
that name them as they are; and what happens resumes exactly the sequences that wait for it, in
every run, for every meaning that leaves the variables of the sequencer alone. -/
theorem Module.sharedEvents_after {options : Options} {present name : String} {m₀ : Module}
    (h₀ : Module.new? options present name = .ok m₀) (history : List Operation)
    (hfault : (m₀.after history).fault = none) :
    ∃ cs, (m₀.after history).Hosts cs ∧
      cs.map (·.source) = sourcesOf (registrations options.devices history) ∧
      (m₀.after history).Shares cs ∧
      (∀ more, Persist (m₀.after history).prologue (m₀.after (history ++ more)).prologue ∧
        (m₀.after history).body <+: (m₀.after (history ++ more)).body) ∧
      ∀ {R : Type} (M : Meaning R), M.Lawful →
        (∀ c ∈ cs, ∀ q ∈ partsOf c.script, M.Ignores (ownedBy cs) q) →
        ∀ firings : List (Firing R), (∀ f ∈ firings, f.Apart (ownedBy cs)) →
          ∀ (st su : Store R) (n : Nat) (es : List (Happening R)) (f : Firing R)
            (rest : List (Firing R)),
            Steps (Code.outward M ((m₀.after history).code cs) (ownedBy cs)) n
              ⟨M.initial (m₀.after history) st, [], firings⟩ es ⟨su, [], f :: rest⟩ →
            (m₀.after history).Resumes M cs su f rest := by
  obtain ⟨cs, h, hsources⟩ := hosts_after h₀ history hfault
  have ho := orderly_after h₀ history
  refine ⟨cs, h, hsources, h.shares ho, fun more => ?_, ?_⟩
  · rw [after_append]
    exact (m₀.after history).persist_after more
  · intro R M hM hignores firings hfirings st su n es f rest hsteps
    exact h.resumes ho hM hignores hfirings hsteps

/-- Two announcements in a new module share one block. -/
theorem Module.sharedEvents_after_announcements :
    ∃ m₀ cs, Module.new? .standard "" "bench" = .ok m₀ ∧
      (m₀.after [.sequence (.bool true) announcement,
        .sequence (.bool true) announcement]).Shares cs ∧
      (sharedEvents (m₀.after [.sequence (.bool true) announcement,
        .sequence (.bool true) announcement]).prologue).map
          (fun b => (b.event.text, b.waiters)) = [("initial_step", [1, 2])] := by
  obtain ⟨m₀, h₀⟩ : ∃ m₀, Module.new? .standard "" "bench" = .ok m₀ := ⟨_, rfl⟩
  have hfault : (m₀.after [.sequence (.bool true) announcement,
      .sequence (.bool true) announcement]).fault = none := by
    rw [eq_of_new? h₀, ← Option.isNone_iff_eq_none]
    decide +kernel
  obtain ⟨cs, -, -, hshares, -⟩ := Module.sharedEvents_after h₀ _ hfault
  refine ⟨m₀, cs, h₀, hshares, ?_⟩
  rw [eq_of_new? h₀]
  decide +kernel

end Stimulus
