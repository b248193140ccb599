import Stimulus.Proofs.History
import Stimulus.Proofs.Sequence.Accepted

/-!
# Hosted sequences

A module that is not poisoned hosts the sequences of its history: each of them has its variables,
its driver and the statement that runs it there, in the order in which the sequences were made, and
the shared blocks are those that the sequences have been entered into.

## Main results

* `Module.Hosts`: what a module holds for its sequences.
* `Module.hosts_after`: a module without a fault hosts all sequences of its history.
-/

namespace Stimulus

open Build

/-! ### Compiled scripts -/

/-- A script and what it was compiled to. -/
structure Compiled where
  control : SequenceControl
  guard : Expr .bool
  script : List Statement
  fragment : Sequence.Fragment
  counters : List String

namespace Compiled

variable (c : Compiled)

/-- The flow of a script. -/
def flow : Sequence.Flow :=
  c.fragment.finish

/-- The statement that runs a script. -/
def runner : Statement :=
  Sequence.runner c.guard c.control c.flow

/-- The names of the variables that were declared for a script. -/
def names : List String :=
  c.control.names ++ c.counters

/-- The variables that were declared for a script. -/
def declarations : List VariableDeclaration :=
  c.control.declarations ++ c.counters.map Sequence.counterDeclaration

/-- What was given to the module. -/
def source : Expr .bool × List Statement :=
  (c.guard, c.script)

/-- The declared names of a script. -/
@[simp] theorem map_declarations : c.declarations.map (·.name) = c.names := by
  simp [declarations, names, SequenceControl.declarations, SequenceControl.names,
    Function.comp_def, Sequence.counterDeclaration]

end Compiled

/-- The blocks after all signals of some scripts have been entered. -/
def enteredAll (cs : List Compiled) : List SharedEvent :=
  cs.foldl (fun blocks c => (signalsOf c.script).foldl (entered c.control.index) blocks) []

/-- A module **hosts** some compiled scripts: it has their variables, their drivers and the
statements that run them, in order, and its shared blocks are those of their signals. -/
structure Module.Hosts (m : Module) (cs : List Compiled) : Prop where
  sequences : m.sequences = cs.length
  controls : cs.map (·.control) = (List.range' 1 cs.length).map SequenceControl.mk
  layout : ∀ c ∈ cs, ∀ number, Sequence.Agrees number m.prologue →
    Sequence.Layout number 0 [] c.script c.counters c.fragment
  stepless : ∀ c ∈ cs, c.runner.hasScriptStep = false
  drivers : (cs.map fun c => c.control.driver m.options.timerTolerance).Sublist
    (prologueStatements m.prologue)
  runners : (cs.map (·.runner)).Sublist m.body
  declared : (cs.flatMap (·.declarations)).Sublist m.declaredVariables
  initialised : m.Initialised
  nodup : (m.declaredVariables.map (·.name)).Nodup
  taken : ∀ v ∈ m.declaredVariables, v.name ∈ m.names.taken
  blocks : sharedEvents m.prologue = enteredAll cs

/-! ### Registrations other than sequences -/

/-- What a registration other than a sequence may change: variables with free names are declared,
and statements are added. -/
structure Module.Grows (m m' : Module) : Prop where
  options : m'.options = m.options
  sequences : m'.sequences = m.sequences
  taken : ∀ x ∈ m.names.taken, x ∈ m'.names.taken
  declared : m'.declaredVariables = m.declaredVariables ∨
    ∃ v : VariableDeclaration, m'.declaredVariables = m.declaredVariables ++ [v] ∧
      v.name ∉ m.names.taken ∧ v.name ∈ m'.names.taken
  prologue : m'.prologue = m.prologue ∨ ∃ s, m'.prologue = m.prologue ++ [.statement s]
  body : m.body.Sublist m'.body

/-- The sequence that a registration is, if it is one. -/
def Registration.source? : Registration → Option (Expr .bool × List Statement)
  | .sequence guard items => some (guard, items)
  | _ => none

/-- A successful registration other than a sequence changes only what it may. -/
theorem Registration.build_grows {r : Registration} (hr : r.source? = none) {m m' : Module}
    {u : Unit} (h : r.build m = .ok u m') : m.Grows m' := by
  cases r with
  | net name width direction =>
      obtain ⟨-, htaken, names, rfl⟩ := Module.declareNet_ok h
      dsimp only at htaken
      refine ⟨rfl, rfl, fun x hx => ?_, .inl rfl, .inl rfl, .refl _⟩
      rw [htaken]
      exact List.mem_cons_of_mem _ hx
  | parameter name default =>
      obtain ⟨_, _, hd, hp⟩ := bind_ok.mp h
      obtain ⟨-, rfl⟩ := pure_ok.mp hp
      obtain ⟨-, htaken, names, rfl⟩ := Module.parameter_ok hd
      dsimp only at htaken
      refine ⟨rfl, rfl, fun x hx => ?_, .inl rfl, .inl rfl, .refl _⟩
      rw [htaken]
      exact List.mem_cons_of_mem _ hx
  | anonymous initial =>
      obtain ⟨v, _, hd, hp⟩ := bind_ok.mp h
      obtain ⟨-, rfl⟩ := pure_ok.mp hp
      obtain ⟨-, hfree, htaken, names, rfl⟩ := Module.anonymousVariable_ok hd
      dsimp only at htaken
      refine ⟨rfl, rfl, fun x hx => ?_, .inr ⟨_, rfl, hfree, ?_⟩, .inl rfl, .refl _⟩
      · rw [htaken]
        exact List.mem_cons_of_mem _ hx
      · rw [htaken]
        exact List.mem_cons_self
  | named name initial =>
      obtain ⟨v, _, hd, hp⟩ := bind_ok.mp h
      obtain ⟨-, rfl⟩ := pure_ok.mp hp
      obtain ⟨-, hfree, htaken, names, rfl⟩ := Module.namedVariable_ok hd
      dsimp only at htaken
      refine ⟨rfl, rfl, fun x hx => ?_, .inr ⟨_, rfl, hfree, ?_⟩, .inl rfl, .refl _⟩
      · rw [htaken]
        exact List.mem_cons_of_mem _ hx
      · rw [htaken]
        exact List.mem_cons_self
  | «prologue» s =>
      obtain ⟨-, rfl⟩ := Module.addPrologue_ok h
      exact ⟨rfl, rfl, fun _ hx => hx, .inl rfl, .inr ⟨s, rfl⟩, .refl _⟩
  | body s =>
      obtain ⟨-, rfl⟩ := Module.addBody_ok h
      exact ⟨rfl, rfl, fun _ hx => hx, .inl rfl, .inl rfl, List.sublist_append_left _ _⟩
  | epilogue s =>
      obtain ⟨-, rfl⟩ := Module.addEpilogue_ok h
      exact ⟨rfl, rfl, fun _ hx => hx, .inl rfl, .inl rfl, .refl _⟩
  | «sequence» guard items => cases hr
  | marker tag =>
      obtain rfl := modify_ok.mp h
      exact ⟨rfl, rfl, fun _ hx => hx, .inl rfl, .inl rfl, .refl _⟩

namespace Module.Hosts

variable {m m' : Module} {cs : List Compiled}

/-- A module goes on hosting its sequences when it grows. -/
theorem of_grows (h : m.Hosts cs) (hg : m.Grows m') (hinitialised : m'.Initialised) :
    m'.Hosts cs where
  sequences := hg.sequences.trans h.sequences
  controls := h.controls
  layout c hc number hn := by
    have hpersist : Persist m.prologue m'.prologue := by
      rcases hg.prologue with hp | ⟨s, hp⟩
      · rw [hp]
        exact .refl _
      · rw [hp]
        exact .append _ _
    exact h.layout c hc number (hn.of_persist hpersist)
  stepless := h.stepless
  drivers := by
    rw [hg.options]
    rcases hg.prologue with hp | ⟨s, hp⟩
    · rw [hp]
      exact h.drivers
    · rw [hp, prologueStatements_append]
      exact h.drivers.trans (List.sublist_append_left _ _)
  runners := h.runners.trans hg.body
  declared := by
    rcases hg.declared with hd | ⟨v, hd, -⟩
    · rw [hd]
      exact h.declared
    · rw [hd]
      exact h.declared.trans (List.sublist_append_left _ _)
  initialised := hinitialised
  nodup := by
    rcases hg.declared with hd | ⟨v, hd, hfree, -⟩
    · rw [hd]
      exact h.nodup
    · rw [hd, List.map_append]
      refine List.nodup_append.mpr ⟨h.nodup, List.nodup_singleton _, ?_⟩
      -- The name of the new variable was free, and those of the others were taken.
      rintro x hx _ hv rfl
      obtain rfl := List.mem_singleton.mp hv
      obtain ⟨w, hw, hwname⟩ := List.mem_map.mp hx
      dsimp only at hwname
      refine hfree ?_
      rw [← hwname]
      exact h.taken w hw
  taken := by
    rcases hg.declared with hd | ⟨v, hd, -, hv⟩
    · rw [hd]
      exact fun w hw => hg.taken _ (h.taken w hw)
    · rw [hd]
      intro w hw
      rcases List.mem_append.mp hw with hw | hw
      · exact hg.taken _ (h.taken w hw)
      · obtain rfl := List.mem_singleton.mp hw
        exact hv
  blocks := by
    rw [← h.blocks]
    rcases hg.prologue with hp | ⟨s, hp⟩
    · rw [hp]
    · rw [hp, sharedEvents_append, sharedEvents_statement, List.append_nil]

/-- A module hosts a sequence that it has accepted besides those that it hosted before. -/
theorem of_accepted (h : m.Hosts cs) {guard : Expr .bool} {items : List Statement}
    {control : SequenceControl} {f : Sequence.Fragment} {counters : List String}
    (ha : Sequence.Accepted guard items m control f counters m') (hinitialised : m'.Initialised) :
    m'.Hosts (cs ++ [⟨control, guard, items, f, counters⟩]) := by
  obtain ⟨names, hm'⟩ := ha.module_eq
  have hpersist : Persist m.prologue m'.prologue := by
    rw [hm']
    exact (Persist.append _ _).trans (.registeredAll _ _ _)
  have hnew : (Compiled.declarations ⟨control, guard, items, f, counters⟩).map (·.name)
      = control.names ++ counters :=
    Compiled.map_declarations _
  have hdeclared : m'.declaredVariables
      = m.declaredVariables ++ Compiled.declarations ⟨control, guard, items, f, counters⟩ := by
    rw [hm', Compiled.declarations, List.append_assoc]
  exact {
    sequences := by
      rw [hm', List.length_append]
      exact congrArg (· + 1) h.sequences
    controls := by
      -- The index of a sequence is the number of sequences with it.
      have hcontrol : control = ⟨1 + 1 * cs.length⟩ := by
        rw [ha.control_eq, h.sequences, Nat.one_mul, Nat.add_comm]
      rw [List.map_append, h.controls, List.length_append, List.length_singleton,
        List.range'_concat, List.map_append, hcontrol]
      rfl
    layout := by
      intro c hc number hn
      rcases List.mem_append.mp hc with hc | hc
      · exact h.layout c hc number (hn.of_persist hpersist)
      · obtain rfl := List.mem_singleton.mp hc
        exact ha.layout number hn
    stepless := by
      intro c hc
      rcases List.mem_append.mp hc with hc | hc
      · exact h.stepless c hc
      · obtain rfl := List.mem_singleton.mp hc
        exact ha.stepless
    drivers := by
      rw [hm', prologueStatements_registeredAll, prologueStatements_append, List.map_append]
      exact h.drivers.append (.refl _)
    runners := by
      rw [hm', List.map_append]
      exact h.runners.append (.refl _)
    declared := by
      rw [hdeclared, List.flatMap_append, List.flatMap_singleton]
      exact h.declared.append (.refl _)
    initialised := hinitialised
    nodup := by
      rw [hdeclared, List.map_append, hnew]
      refine List.nodup_append.mpr ⟨h.nodup, ha.fresh.1, ?_⟩
      rintro x hx _ hx' rfl
      obtain ⟨w, hw, hwname⟩ := List.mem_map.mp hx
      refine ha.fresh.2 x hx' ?_
      rw [← hwname]
      exact h.taken w hw
    taken := by
      intro v hv
      rw [ha.taken]
      rw [hdeclared] at hv
      rcases List.mem_append.mp hv with hv | hv
      · exact List.mem_append_right _ (List.mem_append_right _ (h.taken v hv))
      · have hname : v.name ∈ control.names ++ counters := by
          rw [← hnew]
          exact List.mem_map_of_mem hv
        rcases List.mem_append.mp hname with hname | hname
        · exact List.mem_append_right _
            (List.mem_append_left _ (List.mem_reverse.mpr hname))
        · exact List.mem_append_left _ (List.mem_reverse.mpr hname)
    blocks := by
      rw [hm', sharedEvents_registeredAll, sharedEvents_append, sharedEvents_statement,
        List.append_nil, h.blocks, enteredAll, enteredAll, List.foldl_append]
      rfl }

end Module.Hosts

/-! ### Histories -/

/-- The sequences among some registrations, in order. -/
def sourcesOf (rs : List Registration) : List (Expr .bool × List Statement) :=
  rs.filterMap (·.source?)

/-- What a successful registration adds to the sequences that a module hosts. -/
theorem Module.Hosts.of_build {m m' : Module} {cs : List Compiled} (h : m.Hosts cs)
    (ho : Orderly m.prologue) {r : Registration} {u : Unit} (hr : r.build m = .ok u m') :
    ∃ new, m'.Hosts (cs ++ new) ∧ new.map (·.source) = r.source?.toList := by
  have hinitialised := (r.build_relates tolerates_initialised).ok hr h.initialised
  cases hs : r.source? with
  | none =>
      refine ⟨[], ?_, rfl⟩
      rw [List.append_nil]
      exact h.of_grows (Registration.build_grows hs hr) hinitialised
  | some source =>
      cases r with
      | «sequence» guard items =>
          obtain rfl := Option.some.inj hs
          obtain ⟨r, _, hseq, hp⟩ := bind_ok.mp hr
          obtain ⟨-, rfl⟩ := pure_ok.mp hp
          obtain ⟨f, counters, -, -, ha⟩ := Module.sequence_ok ho hseq
          exact ⟨[⟨r.control, guard, items, f, counters⟩], h.of_accepted ha hinitialised, rfl⟩
      | _ => cases hs

/-- What successful registrations add to the sequences that a module hosts. -/
theorem Module.Hosts.of_runAll {rs : List Registration} {m m' : Module} {cs : List Compiled}
    (h : m.Hosts cs) (ho : Orderly m.prologue) {u : Unit}
    (hr : Registration.runAll rs m = .ok u m') :
    ∃ new, m'.Hosts (cs ++ new) ∧ new.map (·.source) = sourcesOf rs := by
  induction rs generalizing m cs with
  | nil =>
      obtain ⟨-, rfl⟩ := pure_ok.mp hr
      refine ⟨[], ?_, rfl⟩
      rwa [List.append_nil]
  | cons r rs ih =>
      obtain ⟨_, m₁, hbuild, hrest⟩ := bind_ok.mp hr
      obtain ⟨new, hnew, hsource⟩ := h.of_build ho hbuild
      have ho₁ := (r.build_relates tolerates_orderly).ok hbuild ho
      obtain ⟨more, hmore, hsources⟩ := ih hnew ho₁ hrest
      refine ⟨new ++ more, ?_, ?_⟩
      · rwa [← List.append_assoc]
      · rw [List.map_append, hsource, hsources, sourcesOf, sourcesOf, List.filterMap_cons]
        cases r.source? <;> rfl

/-- **A module without a fault hosts its sequences**: those of its history, in order. -/
theorem Module.hosts_after {options : Options} {present name : String} {m : Module}
    (h : Module.new? options present name = .ok m) (history : List Operation)
    (hfault : (m.after history).fault = none) :
    ∃ cs, (m.after history).Hosts cs ∧
      cs.map (·.source) = sourcesOf (registrations options.devices history) := by
  have hrun := after_ok hfault
  have hm := eq_of_new? h
  have hempty : m.Hosts [] := by
    rw [hm]
    exact ⟨rfl, rfl, by simp, by simp, List.nil_sublist _, List.nil_sublist _,
      List.nil_sublist _, rfl, List.nodup_nil, by simp, rfl⟩
  have ho : Orderly m.prologue := by
    rw [hm]
    exact .nil
  obtain ⟨cs, hcs, hsources⟩ := hempty.of_runAll ho hrun
  refine ⟨cs, hcs, ?_⟩
  rw [hsources, hm]

end Stimulus
