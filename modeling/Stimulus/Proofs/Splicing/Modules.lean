import Stimulus.Proofs.Poisoning
import Stimulus.Proofs.Splicing.Sketch

/-!
# Lists in modules

A section of a module keeps the statements that are added to it as they are, with the lists in them.
So two modules that were made alike, except that a list here stood for its elements there, are not
equal. They are the same once their sections are **spliced**, and no construction step sees the
difference: from such modules it fails with the same fault or gives the same result, and it leaves
such modules behind. Emission does not see it either.

## Main definitions

* `Module.spliced`, a module with the lists in its sections spliced.
* `Build.Tracks`: two steps that agree on modules which are the same once they are spliced.
* `Interchangeable`: lists of statements that cannot be told apart.
* `LaidOut`: what the layout of a block depends on.

## Main results

* `Module.emit?_spliced`: splicing does not change the text of a module.
* `Operation.tracks_build`: no operation sees the lists in sections.
* `Module.emit?_addEach`: adding a list to a section is adding its elements one by one.
* `Sketch.lists_invisible`: replacing lists by their elements changes nothing.
-/

namespace Stimulus

open Build

/-! ### Spliced modules -/

/-- The items that an item of the prologue stands for once lists are spliced. -/
def PrologueItem.leaves : PrologueItem → List PrologueItem
  | .statement s => s.leaves.map .statement
  | .shared b => [.shared b]

/-- A module with the lists in its sections spliced. -/
def Module.spliced (m : Module) : Module :=
  { m with
    prologue := m.prologue.flatMap PrologueItem.leaves
    body := leavesOf m.body
    epilogue := leavesOf m.epilogue }

/-- The search for a block passes statements. -/
theorem enterSignal_statements (index : Nat) (event : Event) (number : Nat)
    (ss : List Statement) (rest : List PrologueItem) :
    enterSignal index event number (ss.map .statement ++ rest)
      = ((enterSignal index event number rest).1,
          ss.map .statement ++ (enterSignal index event number rest).2) := by
  induction ss with
  | nil => rfl
  | cons s ss ih => rw [List.map_cons, List.cons_append, enterSignal, ih, List.cons_append]

/-- The search for a block leaves lists alone. -/
theorem enterSignal_leaves (index : Nat) (event : Event) (number : Nat)
    (prologue : List PrologueItem) :
    enterSignal index event number (prologue.flatMap PrologueItem.leaves)
      = ((enterSignal index event number prologue).1,
          (enterSignal index event number prologue).2.flatMap PrologueItem.leaves) := by
  induction prologue generalizing number with
  | nil => rfl
  | cons item rest ih =>
      rw [List.flatMap_cons]
      cases item with
      | statement s =>
          rw [PrologueItem.leaves, enterSignal_statements, ih, enterSignal]
          rfl
      | shared b =>
          rw [PrologueItem.leaves, List.singleton_append, enterSignal, enterSignal]
          split
          · rfl
          · rw [ih]
            rfl

/-! ### The text of spliced modules -/

/-- A search in the statements of a section that looks for no lists finds the same in the leaves. -/
theorem any_anyNode_leavesOf {p : Statement → Bool} (hp : ∀ items, p (.list items) = false)
    (items : List Statement) :
    (leavesOf items).any (·.anyNode p) = items.any (·.anyNode p) := by
  rw [← anyNodeOf_eq_any, ← anyNodeOf_eq_any, anyNodeOf_leavesOf hp]

/-- The texts of statements are those of their leaves. -/
theorem join_render_leavesOf (depth : Nat) (items : List Statement) :
    String.join ((leavesOf items).map (·.render depth))
      = String.join (items.map (·.render depth)) := by
  induction items with
  | nil => rfl
  | cons s rest ih =>
      rw [leavesOf, List.map_append, String.join_append, ih, ← s.render_eq, List.map_cons,
        String.join_cons]

namespace Module

/-- The rounding function is called in the leaves if it is called. -/
theorem needsRounding_spliced (m : Module) : m.spliced.needsRounding = m.needsRounding := by
  have hstatement (s : Statement) :
      (s.leaves.map PrologueItem.statement).any (·.needsRounding) = s.needsRounding := by
    rw [List.any_map, Statement.needsRounding, ← s.anyNodeOf_leaves fun _ => rfl, anyNodeOf_eq_any]
    rfl
  have hprologue : (m.prologue.flatMap PrologueItem.leaves).any (·.needsRounding)
      = m.prologue.any (·.needsRounding) := by
    rw [List.any_flatMap]
    refine congrArg m.prologue.any (funext fun item => ?_)
    cases item with
    | statement s => exact hstatement s
    | shared b => simp [PrologueItem.leaves]
  have hsection (items : List Statement) :
      (leavesOf items).any (·.needsRounding) = items.any (·.needsRounding) :=
    any_anyNode_leavesOf (fun _ => rfl) items
  unfold needsRounding
  rw [← hprologue, ← hsection m.body, ← hsection m.epilogue]
  rfl

/-- **Splicing does not change the text of a module.** -/
theorem emit?_spliced (m : Module) : m.spliced.emit? = m.emit? := by
  have hstatement (s : Statement) :
      String.join ((s.leaves.map PrologueItem.statement).map (·.render 1)) = s.render 1 := by
    rw [s.render_eq, List.map_map]
    rfl
  have hprologue : String.join ((m.prologue.flatMap PrologueItem.leaves).map (·.render 1))
      = String.join (m.prologue.map (·.render 1)) := by
    induction m.prologue with
    | nil => rfl
    | cons item rest ih =>
        rw [List.flatMap_cons, List.map_append, String.join_append, ih, List.map_cons,
          String.join_cons]
        refine congrArg (· ++ _) ?_
        cases item with
        | statement s => exact hstatement s
        | shared b => simp [PrologueItem.leaves]
  have hanalog : m.spliced.analogPart = m.analogPart := by
    unfold analogPart
    rw [← hprologue, ← join_render_leavesOf 1 m.body, ← join_render_leavesOf 1 m.epilogue]
    rfl
  have hfunctions : m.spliced.functionsPart = m.functionsPart := by
    unfold functionsPart
    rw [m.needsRounding_spliced]
  have hparts : m.spliced.parts = m.parts := by
    unfold parts
    rw [hanalog, hfunctions]
    rfl
  unfold emit?
  rw [hparts]
  rfl

end Module

/-! ### Steps that track each other -/

namespace Build

variable {α β : Type}

/-- Two outcomes that are the same fault or the same result, with modules that are the same once
they are spliced. -/
inductive Tracked : EStateM.Result Fault Module α → EStateM.Result Fault Module α → Prop
  | ok {a : α} {m n : Module} (h : m.spliced = n.spliced) : Tracked (.ok a m) (.ok a n)
  | error {f : Fault} {m n : Module} (h : m.spliced = n.spliced) : Tracked (.error f m) (.error f n)

/-- Two steps **track** each other if they agree on modules that are the same once they are
spliced. -/
def Tracks (x y : Build α) : Prop :=
  ∀ m n : Module, m.spliced = n.spliced → Tracked (x m) (y n)

/-- Giving a result tracks itself. -/
theorem tracks_pure (a : α) : Tracks (pure a : Build α) (pure a) :=
  fun _ _ h => .ok h

/-- Failing tracks itself. -/
theorem tracks_fail (f : Fault) : Tracks (fail f : Build α) (fail f) :=
  fun _ _ h => .error (congrArg (fun k : Module => { k with fault := k.fault.or (some f) }) h)

/-- Going on with a checked value tracks itself. -/
theorem tracks_ofExcept (e : Except Fault α) : Tracks (ofExcept e) (ofExcept e) := by
  cases e with
  | ok a => exact tracks_pure a
  | error f => exact tracks_fail f

/-- Changes track each other if they keep modules the same up to splicing. -/
theorem tracks_modify {f g : Module → Module}
    (h : ∀ m n : Module, m.spliced = n.spliced → (f m).spliced = (g n).spliced) :
    Tracks (modify f : Build PUnit) (modify g) :=
  fun m n hmn => .ok (h m n hmn)

/-- A change that comes to the same before and after splicing tracks itself. -/
theorem tracks_change {f : Module → Module} (h : ∀ m : Module, (f m).spliced = f m.spliced) :
    Tracks (modify f : Build PUnit) (modify f) :=
  tracks_modify fun m n hmn => by rw [h, h, hmn]

/-- Composed steps track each other if their parts do. -/
theorem Tracks.bind {x y : Build α} {f g : α → Build β} (h : Tracks x y)
    (hfg : ∀ a, Tracks (f a) (g a)) : Tracks (x >>= f) (y >>= g) := by
  intro m n hmn
  have hout := h m n hmn
  cases hx : x m with
  | ok a m' =>
      cases hy : y n with
      | ok b n' =>
          rw [hx, hy] at hout
          cases hout with
          | ok hspliced =>
              rw [bind_of_ok hx, bind_of_ok hy]
              exact hfg a m' n' hspliced
      | error e n' =>
          rw [hx, hy] at hout
          cases hout
  | error e m' =>
      cases hy : y n with
      | ok b n' =>
          rw [hx, hy] at hout
          cases hout
      | error e' n' =>
          rw [hx, hy] at hout
          cases hout with
          | error hspliced =>
              rw [bind_of_error hx, bind_of_error hy]
              exact .error hspliced

/-- Reading the module first: what goes on may look at all that splicing leaves alone. -/
theorem tracks_get_bind {f g : Module → Build α}
    (h : ∀ m n : Module, m.spliced = n.spliced → Tracks (f m) (g n)) :
    Tracks (get >>= f) (get >>= g) :=
  fun m n hmn => h m n hmn m n hmn

/-- Steps with two alternatives track each other if the alternatives do. -/
theorem tracks_ite {p : Prop} [Decidable p] {x y x' y' : Build α} (hx : Tracks x x')
    (hy : Tracks y y') : Tracks (if p then x else y) (if p then x' else y') := by
  split
  · exact hx
  · exact hy

end Build

/-! ### Declarations -/

namespace Module

/-- Splicing leaves names alone. -/
theorem names_eq_of_spliced {m n : Module} (h : m.spliced = n.spliced) : m.names = n.names := by
  have hnames : m.spliced.names = n.spliced.names := congrArg Module.names h
  exact hnames

/-- Claiming a name tracks itself. -/
theorem tracks_claim (name : String) : Tracks (claim name) (claim name) := by
  refine tracks_get_bind fun m n h => ?_
  rw [names_eq_of_spliced h]
  exact (tracks_ofExcept _).bind fun _ => tracks_change fun _ => rfl

/-- Declaring a net tracks itself. -/
theorem tracks_declareNet (name : String) (width : Nat) (direction : Direction) :
    Tracks (declareNet name width direction) (declareNet name width direction) :=
  tracks_ite (tracks_fail _) ((tracks_claim name).bind fun _ => tracks_change fun _ => rfl)

/-- Declaring a parameter tracks itself. -/
theorem tracks_parameter {k : Kind} (name : String) (default : Expr k) :
    Tracks (parameter name default) (parameter name default) := by
  refine (tracks_claim name).bind fun _ => .bind (tracks_change fun m => ?_) fun _ => tracks_pure _
  rfl

/-- Entering a variable tracks itself. -/
theorem tracks_declareVariable {k : Kind} (name : String) (initial : Expr k) :
    Tracks (declareVariable name initial) (declareVariable name initial) := by
  refine .bind (tracks_change fun m => ?_) fun _ => tracks_pure _
  rfl

/-- Declaring an anonymous variable tracks itself. -/
theorem tracks_anonymousVariable {k : Kind} (initial : Expr k) :
    Tracks (anonymousVariable initial) (anonymousVariable initial) := by
  refine tracks_get_bind fun m n h => ?_
  rw [names_eq_of_spliced h]
  refine .bind (tracks_change fun m => ?_) fun _ => tracks_declareVariable _ initial
  rfl

/-- Declaring a named variable tracks itself. -/
theorem tracks_namedVariable {k : Kind} (name : String) (initial : Expr k) :
    Tracks (namedVariable name initial) (namedVariable name initial) :=
  (tracks_claim name).bind fun _ => tracks_declareVariable name initial

/-- Prologues that are the same once they are spliced may take each other's place. -/
theorem tracks_setPrologue {p q : List PrologueItem}
    (h : p.flatMap PrologueItem.leaves = q.flatMap PrologueItem.leaves) :
    Tracks (modify fun m => { m with prologue := p } : Build PUnit)
      (modify fun m => { m with prologue := q }) := by
  refine tracks_modify fun m n hmn => ?_
  let put (k : Module) (r : List PrologueItem) : Module := { k with prologue := r }
  have hput (k : Module) (r : List PrologueItem) :
      (put k r).spliced = put k.spliced (r.flatMap PrologueItem.leaves) := rfl
  exact (hput m p).trans ((congrArg₂ put hmn h).trans (hput n q).symm)

/-- Registering a signal tracks itself. -/
theorem tracks_registerSignal (index : Nat) (event : Event) :
    Tracks (registerSignal index event) (registerSignal index event) := by
  refine tracks_get_bind fun m n h => ?_
  have hprologue : m.prologue.flatMap PrologueItem.leaves
      = n.prologue.flatMap PrologueItem.leaves := by
    have hspliced : m.spliced.prologue = n.spliced.prologue := congrArg Module.prologue h
    exact hspliced
  have henter := congrArg (enterSignal index event 1) hprologue
  rw [enterSignal_leaves, enterSignal_leaves] at henter
  obtain ⟨hnumber, hitems⟩ := Prod.mk.inj henter
  dsimp only
  rw [hnumber]
  exact (tracks_setPrologue hitems).bind fun _ => tracks_pure _

end Module

/-! ### Scripts -/

/-- Compiling a script tracks itself. -/
theorem Sequence.tracks_compileAll (index base : Nat) (pending : List Work)
    (items : List Statement) :
    Tracks (compileAll index base pending items) (compileAll index base pending items) := by
  induction base, pending, items using compileAll.induct
    (fun base pending s => Tracks (compile index base pending s) (compile index base pending s))
    with
  | case1 base pending c =>
      rw [compile]
      exact tracks_pure _
  | case2 base pending items ih =>
      rw [compile]
      exact ih
  | case3 base pending microseconds =>
      rw [compile]
      exact tracks_pure _
  | case4 base pending event =>
      rw [compile]
      exact (Module.tracks_registerSignal index event).bind fun _ => tracks_pure _
  | case5 base pending state label =>
      rw [compile]
      exact tracks_pure _
  | case6 base pending condition yes no ihy ihn =>
      rw [compile]
      refine ihy.bind fun y => tracks_ite (tracks_pure _) ?_
      exact (ihn y).bind fun _ => tracks_pure _
  | case7 base pending count body ih =>
      rw [compile]
      refine (Module.tracks_anonymousVariable _).bind fun _ => ih.bind fun _ => ?_
      exact tracks_pure _
  | case8 base pending condition body ih =>
      rw [compile]
      exact ih.bind fun _ => tracks_pure _
  | case9 base pending start condition next body ih =>
      rw [compile]
      exact ih.bind fun _ => tracks_pure _
  | case10 base pending header body h =>
      rw [compile]
      exact tracks_ite (tracks_fail _) (tracks_pure _)
  | case11 base pending header body h =>
      rw [compile]
      exact tracks_ite (tracks_fail _) (tracks_pure _)
  | case12 base pending event body h =>
      rw [compile]
      exact tracks_ite (tracks_fail _) (tracks_fail _)
  | case13 base pending event body h =>
      rw [compile]
      exact tracks_ite (tracks_fail _) (tracks_fail _)
  | case14 base pending scrutinee arms =>
      rw [compile]
      exact tracks_fail _
  | case15 base pending =>
      rw [compileAll]
      exact tracks_pure _
  | case16 base pending s rest ih ihr =>
      rw [compileAll]
      refine ih.bind fun f => (ihr f).bind fun _ => ?_
      exact tracks_pure _

/-! ### Sections -/

/-- The operation that adds a statement to a section. -/
def Operation.add : Section → Statement → Operation
  | .prologue, s => .addPrologue s
  | .body, s => .addBody s
  | .epilogue, s => .addEpilogue s

/-- A module with more statements in a section. -/
def Module.put (part : Section) (m : Module) (items : List Statement) : Module :=
  match part with
  | .prologue => { m with prologue := m.prologue ++ items.map .statement }
  | .body => { m with body := m.body ++ items }
  | .epilogue => { m with epilogue := m.epilogue ++ items }

/-- Statements are put into a section one after the other. -/
theorem Module.put_put (part : Section) (m : Module) (xs ys : List Statement) :
    (m.put part xs).put part ys = m.put part (xs ++ ys) := by
  cases part <;> simp [put]

/-- What is put into a section is spliced there. -/
theorem Module.spliced_put (m : Module) (part : Section) (items : List Statement) :
    (m.put part items).spliced = m.spliced.put part (leavesOf items) := by
  have hstatements : (items.map PrologueItem.statement).flatMap PrologueItem.leaves
      = (leavesOf items).map .statement := by
    induction items with
    | nil => rfl
    | cons s rest ih =>
        rw [List.map_cons, List.flatMap_cons, ih, leavesOf, List.map_append]
        rfl
  cases part with
  | prologue => simp only [put, spliced, List.flatMap_append, hstatements]
  | body => simp only [put, spliced, leavesOf_append]
  | epilogue => simp only [put, spliced, leavesOf_append]

/-- Putting statements into a section tracks itself. -/
theorem Module.tracks_put (part : Section) (items : List Statement) :
    Tracks (modify fun m => m.put part items : Build PUnit) (modify fun m => m.put part items) :=
  tracks_modify fun m n h => by rw [m.spliced_put, n.spliced_put, h]

/-- The fault of a statement that must not stand in a section. -/
def Section.refusal (part : Section) : Fault :=
  .misplaced (.scriptStepInSection part)

/-- A statement is put into a section unless there is a script step in it. -/
theorem Operation.add_build (part : Section) (s : Statement) (m : Module) :
    (Operation.add part s).build m =
      if s.hasScriptStep then .error part.refusal { m with fault := m.fault.or (some part.refusal) }
      else .ok () (m.put part [s]) := by
  have hadd (change : Module → Module) :
      (do Module.checkSection part s; modify change : Build Unit) m =
        if s.hasScriptStep then
          .error part.refusal { m with fault := m.fault.or (some part.refusal) }
        else .ok () (change m) := by
    rw [Module.checkSection]
    split
    · exact bind_of_error rfl
    · exact bind_of_ok rfl
  cases part with
  | prologue => exact hadd _
  | body => exact hadd _
  | epilogue => exact hadd _

/-- There is a script step in a statement if there is one in its leaves. -/
theorem Statement.hasScriptStep_congr {s t : Statement} (h : s.leaves = t.leaves) :
    s.hasScriptStep = t.hasScriptStep := by
  rw [hasScriptStep, hasScriptStep, ← s.anyNodeOf_leaves fun _ => rfl, h,
    t.anyNodeOf_leaves fun _ => rfl]

/-- Adding statements with the same leaves to a section tracks each other. -/
theorem Operation.tracks_add (part : Section) {s t : Statement} (h : s.leaves = t.leaves) :
    Tracks (Operation.add part s).build (Operation.add part t).build := by
  intro m n hmn
  rw [Operation.add_build, Operation.add_build, Statement.hasScriptStep_congr h]
  split
  · exact .error (congrArg (fun k : Module =>
      { k with fault := k.fault.or (some part.refusal) }) hmn)
  · refine .ok ?_
    rw [m.spliced_put, n.spliced_put, leavesOf_singleton, leavesOf_singleton, h, hmn]

/-! ### Operations -/

/-- Declaring the variables that control a sequence tracks itself. -/
theorem SequenceControl.tracks_declare (c : SequenceControl) : Tracks c.declare c.declare := by
  refine (Module.tracks_namedVariable _ _).bind fun _ => ?_
  refine (Module.tracks_namedVariable _ _).bind fun _ => ?_
  refine (Module.tracks_namedVariable _ _).bind fun _ => ?_
  exact (Module.tracks_namedVariable _ _).bind fun _ => tracks_pure _

/-- Compiling a sequence tracks itself. -/
theorem Module.tracks_sequence (guard : Expr .bool) (items : List Statement) :
    Tracks (Module.sequence guard items) (Module.sequence guard items) := by
  rw [Module.sequence]
  refine tracks_get_bind fun m n h => ?_
  have hsequences : m.spliced.sequences = n.spliced.sequences := congrArg Module.sequences h
  change m.sequences = n.sequences at hsequences
  rw [hsequences]
  refine (SequenceControl.tracks_declare _).bind fun _ => ?_
  refine .bind (tracks_change fun m => ?_) fun _ => ?_
  · rfl
  refine tracks_get_bind fun m n h => ?_
  have hoptions : m.spliced.options = n.spliced.options := congrArg Module.options h
  change m.options = n.options at hoptions
  rw [hoptions]
  refine .bind (Module.tracks_put .prologue [_]) fun _ => ?_
  refine (Sequence.tracks_compileAll _ _ _ _).bind fun f => ?_
  refine (tracks_ofExcept _).bind fun loop => (tracks_ofExcept _).bind fun guarded => ?_
  exact (Operation.tracks_add .body rfl).bind fun _ => tracks_pure _

/-- Entering one thing tracks itself. -/
theorem Registration.tracks_build (r : Registration) : Tracks r.build r.build := by
  cases r with
  | net name width direction => exact Module.tracks_declareNet name width direction
  | parameter name default =>
      exact (Module.tracks_parameter name _).bind fun _ => tracks_pure _
  | anonymous initial => exact (Module.tracks_anonymousVariable _).bind fun _ => tracks_pure _
  | named name initial => exact (Module.tracks_namedVariable name _).bind fun _ => tracks_pure _
  | prologue s => exact Operation.tracks_add .prologue rfl
  | body s => exact Operation.tracks_add .body rfl
  | epilogue s => exact Operation.tracks_add .epilogue rfl
  | sequence guard items => exact (Module.tracks_sequence guard items).bind fun _ => tracks_pure _
  | marker tag =>
      refine tracks_change fun m => ?_
      rfl

/-- Running registrations tracks itself. -/
theorem Registration.tracks_runAll (rs : List Registration) : Tracks (runAll rs) (runAll rs) := by
  induction rs with
  | nil => exact tracks_pure _
  | cons r rest ih => exact r.tracks_build.bind fun _ => ih

/-- **No operation sees the lists in sections.** -/
theorem Operation.tracks_build (o : Operation) : Tracks o.build o.build := by
  intro m n h
  have hoptions : m.spliced.options = n.spliced.options := congrArg Module.options h
  change m.options = n.options at hoptions
  rw [o.build_eq, deviceDefaults_bind_apply, deviceDefaults_bind_apply, hoptions]
  exact Registration.tracks_runAll _ m n h

/-! ### Histories -/

namespace Module

/-- **Histories whose operations track each other** have the same faults and come to modules that
are the same once they are spliced. -/
theorem after_tracks {history history' : List Operation}
    (hs : List.Forall₂ (fun o o' => Tracks o.build o'.build) history history') {m n : Module}
    (h : m.spliced = n.spliced) :
    (m.after history).spliced = (n.after history').spliced ∧
      m.faults history = n.faults history' := by
  induction hs generalizing m n with
  | nil => exact ⟨h, rfl⟩
  | @cons o o' rest rest' ho _ ih =>
      have hout := ho m n h
      rw [after, after, faults, faults]
      cases hx : o.build m with
      | ok u m' =>
          cases hy : o'.build n with
          | ok u' n' =>
              rw [hx, hy] at hout
              cases hout with
              | ok hspliced => exact ih hspliced
          | error f' n' =>
              rw [hx, hy] at hout
              cases hout
      | error f m' =>
          cases hy : o'.build n with
          | ok u' n' =>
              rw [hx, hy] at hout
              cases hout
          | error f' n' =>
              rw [hx, hy] at hout
              cases hout with
              | error hspliced =>
                  obtain ⟨hafter, hfaults⟩ := ih hspliced
                  exact ⟨hafter, congrArg (f :: ·) hfaults⟩

/-- Modules that are the same once they are spliced have the same text. -/
theorem emit?_congr {m n : Module} (h : m.spliced = n.spliced) : m.emit? = n.emit? := by
  rw [← m.emit?_spliced, h, n.emit?_spliced]

/-- A poisoned module has no text, whatever is done to it. -/
theorem emit?_of_fault {m : Module} {cause : Fault} (h : m.fault = some cause)
    (history : List Operation) :
    (m.after history).emit? = .error (.poisoned m.name cause) := by
  unfold emit?
  rw [fault_after h history]
  dsimp only
  rw [(m.header_after history).1]

/-- Statements without script steps are put into a section one by one. -/
theorem after_addEach (part : Section) (m : Module) {items : List Statement}
    (h : ∀ s ∈ items, s.hasScriptStep = false) :
    m.after (items.map (Operation.add part)) = m.put part items := by
  induction items generalizing m with
  | nil => cases part <;> simp [after, put]
  | cons s rest ih =>
      rw [List.forall_mem_cons] at h
      rw [List.map_cons, after, Operation.add_build, h.1, if_neg Bool.false_ne_true]
      dsimp only
      rw [ih _ h.2, put_put]
      rfl

/-- The first statement with a script step is refused. -/
theorem faults_addEach (part : Section) (m : Module) {items : List Statement}
    (h : ∃ s ∈ items, s.hasScriptStep = true) :
    (m.faults (items.map (Operation.add part))).head? = some part.refusal := by
  induction items generalizing m with
  | nil => obtain ⟨s, hs, -⟩ := h; cases hs
  | cons s rest ih =>
      rw [List.map_cons, faults, Operation.add_build]
      cases hs : s.hasScriptStep with
      | true => rfl
      | false =>
          refine ih _ ?_
          obtain ⟨t, ht, hstep⟩ := h
          rcases List.mem_cons.mp ht with rfl | ht
          · exact absurd hstep (by rw [hs]; exact Bool.false_ne_true)
          · exact ⟨t, ht, hstep⟩

/-- **Adding a list to a section** is adding its elements one by one, as far as the text of the
module is concerned. -/
theorem emit?_addEach (part : Section) (m : Module) (before rest : List Operation)
    (items : List Statement) :
    (m.after (before ++ (items.map (Operation.add part) ++ rest))).emit?
      = (m.after (before ++ .add part (.list items) :: rest)).emit? := by
  rw [after_append, after_append, after_append, after_cons]
  generalize m.after before = k
  have hlist : (Statement.list items).hasScriptStep = items.any (·.hasScriptStep) := by
    rw [Statement.hasScriptStep, Statement.anyNode, anyNodeOf_eq_any]
    rfl
  cases hstep : items.any (·.hasScriptStep) with
  | false =>
      have hnone : ∀ s ∈ items, s.hasScriptStep = false := by simpa using hstep
      rw [k.after_addEach part hnone, after, Operation.add_build, hlist, hstep,
        if_neg Bool.false_ne_true]
      refine emit?_congr (after_tracks ?_ ?_).1
      · exact List.forall₂_same.mpr fun o _ => o.tracks_build
      · change (k.put part items).spliced = (k.put part [.list items]).spliced
        rw [k.spliced_put, k.spliced_put, leavesOf_singleton, Statement.leaves]
  | true =>
      have hsome : ∃ s ∈ items, s.hasScriptStep = true := List.any_eq_true.mp hstep
      have hfaults : k.faults [.add part (.list items)] = [part.refusal] := by
        rw [faults, Operation.add_build, hlist, hstep, if_pos rfl]
        rfl
      -- Both ways poison the module with the same fault, or leave it as it was poisoned before.
      obtain ⟨cause, hcause⟩ : ∃ cause, k.fault.or (some part.refusal) = some cause := by
        cases k.fault with
        | none => exact ⟨_, rfl⟩
        | some cause => exact ⟨cause, rfl⟩
      have heach : (k.after (items.map (Operation.add part))).fault = some cause := by
        rw [fault_after_eq, faults_addEach part k hsome, hcause]
      have honce : (k.after [.add part (.list items)]).fault = some cause := by
        rw [fault_after_eq, hfaults, List.head?_cons, hcause]
      rw [emit?_of_fault heach, emit?_of_fault honce, (k.header_after _).1, (k.header_after _).1]

end Module

/-! ### Lists that cannot be told apart -/

/-- Lists of statements that cannot be told apart: all that takes a list of statements does the same
with both of them. -/
structure Interchangeable (xs ys : List Statement) : Prop where
  governed : ∀ g : Governor, g.build? xs = g.build? ys
  conditional : ∀ condition, Conditional.new? condition xs = Conditional.new? condition ys
  alternative : ∀ c : Conditional, c.otherwise? xs = c.otherwise? ys
  arm : ∀ (t : CaseTable) (label : Value), t.arm? label xs = t.arm? label ys
  defaultArm : ∀ t : CaseTable, t.defaultArm? xs = t.defaultArm? ys
  ofList : Statement.ofList xs = Statement.ofList ys
  render : ∀ depth, (Statement.list xs).render depth = (Statement.list ys).render depth
  isEmpty : (Statement.list xs).isEmpty = (Statement.list ys).isEmpty
  needsRounding : (Statement.list xs).needsRounding = (Statement.list ys).needsRounding
  /-- A script is compiled to the same states, with the same changes of the module. -/
  sequence : ∀ guard, Module.sequence guard xs = Module.sequence guard ys
  /-- In any history, a section may be given either list. -/
  faults : ∀ (part : Section) (m : Module) (before rest : List Operation),
    m.faults (before ++ .add part (.list xs) :: rest)
      = m.faults (before ++ .add part (.list ys) :: rest)
  emit : ∀ (part : Section) (m : Module) (before rest : List Operation),
    (m.after (before ++ .add part (.list xs) :: rest)).emit?
      = (m.after (before ++ .add part (.list ys) :: rest)).emit?
  /-- In any history, a section may be given the elements of either list instead. -/
  emitEach : ∀ (part : Section) (m : Module) (before rest : List Operation),
    (m.after (before ++ (xs.map (Operation.add part) ++ rest))).emit?
      = (m.after (before ++ .add part (.list ys) :: rest)).emit?

/-- **Lists with the same leaves** cannot be told apart. -/
theorem interchangeable_of_leaves {xs ys : List Statement} (h : leavesOf xs = leavesOf ys) :
    Interchangeable xs ys := by
  have hlist : (Statement.list xs).leaves = (Statement.list ys).leaves := by
    rw [Statement.leaves, Statement.leaves, h]
  have htracks (part : Section) (before rest : List Operation) :
      List.Forall₂ (fun o o' => Tracks o.build o'.build)
        (before ++ .add part (.list xs) :: rest) (before ++ .add part (.list ys) :: rest) :=
    List.rel_append (List.forall₂_same.mpr fun o _ => o.tracks_build)
      (.cons (Operation.tracks_add part hlist) (List.forall₂_same.mpr fun o _ => o.tracks_build))
  have hemit (part : Section) (m : Module) (before rest : List Operation) :
      (m.after (before ++ .add part (.list xs) :: rest)).emit?
        = (m.after (before ++ .add part (.list ys) :: rest)).emit? :=
    Module.emit?_congr (Module.after_tracks (htracks part before rest) rfl).1
  exact {
    governed := fun g => Governor.build?_congr h g
    conditional := Conditional.new?_congr h
    alternative := Conditional.otherwise?_congr h
    arm := CaseTable.arm?_congr h
    defaultArm := CaseTable.defaultArm?_congr h
    ofList := Statement.ofList_congr h
    render := fun depth => by rw [Statement.render_eq, hlist, ← Statement.render_eq]
    isEmpty := by rw [Statement.isEmpty, Statement.isEmpty, hlist]
    needsRounding := by
      rw [Statement.needsRounding, Statement.needsRounding,
        ← Statement.anyNodeOf_leaves fun _ => rfl, hlist, Statement.anyNodeOf_leaves fun _ => rfl]
    sequence := fun guard => by
      unfold Module.sequence
      simp only [← Sequence.compileAll_leavesOf _ _ _ xs, h, Sequence.compileAll_leavesOf]
    faults := fun part m before rest => (Module.after_tracks (htracks part before rest) rfl).2
    emit := hemit
    emitEach := fun part m before rest =>
      (m.emit?_addEach part before rest xs).trans (hemit part m before rest) }

/-! ### Layout -/

/-- The texts of what stands in a block made from a list of statements. -/
def childTexts (depth : Nat) (items : List Statement) : List String :=
  (leavesOf items).map (·.render depth)

/-- The arms of a case are written one after the other. -/
theorem renderArms_append (depth : Nat) (xs ys : List Arm) :
    renderArms depth (xs ++ ys) = renderArms depth xs ++ renderArms depth ys := by
  induction xs with
  | nil => rw [List.nil_append, renderArms, String.empty_append]
  | cons a rest ih =>
      obtain ⟨label, body⟩ := a
      rw [List.cons_append, renderArms, renderArms, ih, String.append_assoc]

/-- How blocks made from a list of statements are laid out. The layout looks at the number of the
leaves and at their texts, and a conditional also at whether the only leaf of its first branch is
written on one line. -/
structure LaidOut (items : List Statement) : Prop where
  governed : ∀ (g : Governor) (s : Statement), g.build? items = .ok s →
    ∃ head, g.head? = some head ∧ ∀ depth,
      s.render depth = Layout.block depth false head.text (childTexts (depth + 1) items)
  conditional : ∀ condition c, Conditional.new? condition items = .ok c → ∀ depth,
    c.statement.render depth
      = Layout.block depth false ("if( " ++ condition.text ++ " )") (childTexts (depth + 1) items)
  alternative : ∀ condition first c c', Conditional.new? condition first = .ok c →
    c.otherwise? items = .ok c' → ∀ depth,
    c'.statement.render depth
      = Layout.block depth (!(leavesOf items).isEmpty && needsEnclosing (leavesOf first))
          ("if( " ++ condition.text ++ " )") (childTexts (depth + 1) first)
        ++ if (leavesOf items).isEmpty then ""
          else Layout.block depth false "else" (childTexts (depth + 1) items)
  arm : ∀ (t t' : CaseTable) (label : Value), t.arm? label items = .ok t' → ∀ depth,
    renderArms depth t'.arms = renderArms depth t.arms
      ++ Layout.block depth false (armHeader (some label)) (childTexts (depth + 1) items)
  defaultArm : ∀ t t' : CaseTable, t.defaultArm? items = .ok t' → ∀ depth,
    renderArms depth t'.arms = renderArms depth t.arms
      ++ Layout.block depth false (armHeader none) (childTexts (depth + 1) items)

/-- **The layout of a block** depends on leaves only. -/
theorem laidOut (items : List Statement) : LaidOut items where
  governed g s h := by
    obtain ⟨head, hhead, rfl⟩ := g.build?_ok h
    refine ⟨head, hhead, fun depth => ?_⟩
    rw [Statement.render, renderEach_leavesOf, childTexts]
  conditional condition c h depth := by
    rw [Conditional.new?_ok h, Conditional.statement, Statement.render, renderEach_leavesOf,
      childTexts]
    exact String.append_empty
  alternative condition first c c' h h' depth := by
    rw [Conditional.new?_ok h] at h'
    rw [of_childrenOf h', Conditional.statement, Statement.render, renderEach_leavesOf,
      renderEach_leavesOf, childTexts, childTexts, List.isEmpty_map]
  arm t t' label h depth := by
    rw [CaseTable.arm?_ok h, renderArms_append, renderArms, renderArms, renderEach_leavesOf,
      childTexts, String.append_empty]
  defaultArm t t' h depth := by
    rw [CaseTable.defaultArm?_ok h, renderArms_append, renderArms, renderArms,
      renderEach_leavesOf, childTexts, String.append_empty]

/-- **Lists are invisible.** Take sketches that differ in lists only: at any depth, an element may
stand in one of them where the other has it in a list, in a list of lists, or next to empty lists.
Then both are refused with the same fault, or both are built, and what is built cannot be told
apart: by no constructor, by no section of a module and by no sequence. The layout of blocks depends
on the leaves in order. -/
theorem Sketch.lists_invisible {xs ys : List Sketch} (h : spliceAll xs = spliceAll ys) :
    ((∃ f, buildAll xs = .error f ∧ buildAll ys = .error f) ∨
      ∃ ss ts, buildAll xs = .ok ss ∧ buildAll ys = .ok ts ∧ leavesOf ss = leavesOf ts ∧
        Interchangeable ss ts) ∧
    ∀ items, LaidOut items := by
  refine ⟨?_, laidOut⟩
  rcases buildAll_alike h with hfault | ⟨ss, ts, hx, hy, hleaves⟩
  · exact .inl hfault
  · exact .inr ⟨ss, ts, hx, hy, hleaves, interchangeable_of_leaves hleaves⟩

/-- A loop with two statements, and one with the same two in lists, next to lists without
elements. -/
theorem Sketch.lists_invisible_loop :
    let a : Command := .toggle "a"
    let b : Command := .toggle "b"
    let plain : Sketch := .governed (.whileLoop (.bool true)) [.command a, .command b]
    let nested : Sketch := .governed (.whileLoop (.bool true))
      [.list [.list [], .command a], .ofList [.list [.command b, .ofList []]]]
    ∃ loop ss, plain.build = .ok loop ∧ buildAll [.list [nested], .list []] = .ok ss ∧
      (∀ depth, (Statement.list ss).render depth = loop.render depth) ∧
      ∀ guard, Module.sequence guard ss = Module.sequence guard [loop] := by
  intro a b plain nested
  have hplain : buildAll [plain]
      = .ok [.block (.whileLoop (.bool true)) [.command a, .command b]] := rfl
  obtain ⟨⟨f, -, hf⟩ | ⟨ss, ts, hss, hts, -, h⟩, -⟩ :=
    lists_invisible (show spliceAll [.list [nested], .list []] = spliceAll [plain] from rfl)
  · cases hplain.symm.trans hf
  · obtain rfl := Except.ok.inj (hplain.symm.trans hts)
    refine ⟨.block (.whileLoop (.bool true)) [.command a, .command b], ss, rfl, hss,
      fun depth => ?_, h.sequence⟩
    rw [h.render, Statement.render_eq, Statement.leaves, leavesOf_singleton,
      ← Statement.render_eq]

end Stimulus
