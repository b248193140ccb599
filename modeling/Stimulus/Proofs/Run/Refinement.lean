import Stimulus.Proofs.Run.Simulation

/-!
# Sequences do what their scripts say

Compilation keeps the meaning of scripts: the drivers and bodies of a module, started with the
initial values of its variables, log what the scripts log that it was given. The code reads the
count of a loop before each round, and a script reads it once, so this is about scripts that do not
change their counts on the way.

## Main results

* `Meaning.initial_eq`: the initial value of a variable.
* `Module.sequences_refine`: the code of a module and its scripts log the same.
* `Module.log_short_of_lowered_count`: a script that lowers a count.
-/

namespace Stimulus

open Machine Sequence

/-! ### The start -/

namespace Meaning

variable {R : Type} {M : Meaning R}

/-- Declarations of other variables do not matter. -/
theorem foldl_declarations_of_notMem {x : String} (vs : List VariableDeclaration)
    (hx : x ∉ vs.map (·.name)) (st : Store R) :
    vs.foldl (fun st v => st.set v.name (M.value v.initial st)) st x = st x := by
  induction vs generalizing st with
  | nil => rfl
  | cons v vs ih =>
      rw [List.map_cons, List.mem_cons, not_or] at hx
      rw [List.foldl_cons, ih hx.2, st.set_of_ne _ hx.1]

/-- **Initial values.** A variable whose initial value is the same in all stores starts with it. -/
theorem initial_eq (hM : M.Lawful) {m : Module} (hinitialised : m.Initialised)
    (hnodup : (m.declaredVariables.map (·.name)).Nodup) {v : VariableDeclaration}
    (hv : v ∈ m.declaredVariables) {d : Datum R} (hd : ∀ st, M.value v.initial st = d)
    (st : Store R) : M.initial m st v.name = d := by
  have hfold : M.initial m st
      = m.declaredVariables.foldl (fun st v => st.set v.name (M.value v.initial st)) st := by
    rw [initial, hinitialised, List.foldl_map]
    simp only [VariableDeclaration.assignment, hM.assign, Option.getD_some]
  obtain ⟨xs, ys, hsplit⟩ := List.append_of_mem hv
  rw [hsplit, List.map_append, List.map_cons] at hnodup
  obtain ⟨hlast, -⟩ := List.nodup_cons.mp (List.nodup_append.mp hnodup).2.1
  rw [hfold, hsplit, List.foldl_append, List.foldl_cons, foldl_declarations_of_notMem ys hlast,
    Store.set_self, hd]

end Meaning

namespace Module.Hosts

variable {R : Type} {M : Meaning R} {m : Module} {cs : List Compiled}

/-- The control variables of a sequence start with literals. -/
theorem initial_control (h : m.Hosts cs) (hM : M.Lawful) {c : Compiled} (hc : c ∈ cs)
    (st : Store R) :
    M.initial m st c.control.time.name = .real (M.real (.real 0.0) st) ∧
      M.initial m st c.control.state.name = .integer 0 ∧
      M.initial m st c.control.running.name = .integer 0 ∧
      M.initial m st c.control.event.name = .integer 0 := by
  have hdeclared {v : VariableDeclaration} (hv : v ∈ c.control.declarations) :
      v ∈ m.declaredVariables := by
    refine h.declared.subset (List.mem_flatMap.mpr ⟨c, hc, ?_⟩)
    exact List.mem_append_left _ hv
  refine ⟨?_, ?_, ?_, ?_⟩
  · refine Meaning.initial_eq hM h.initialised h.nodup (v := ⟨c.control.time.name, ⟨_, .real 0.0⟩⟩)
      (hdeclared (by simp [SequenceControl.declarations])) (fun su => ?_) st
    rw [Meaning.value, hM.real_literal _ su st]
  · refine Meaning.initial_eq hM h.initialised h.nodup (v := ⟨c.control.state.name, ⟨_, .integer 0⟩⟩)
      (hdeclared (by simp [SequenceControl.declarations])) (fun su => ?_) st
    rw [Meaning.value, hM.integer_literal]
  · refine Meaning.initial_eq hM h.initialised h.nodup (v := ⟨c.control.running.name, ⟨_, .bool false⟩⟩)
      (hdeclared (by simp [SequenceControl.declarations])) (fun su => ?_) st
    rw [Meaning.value, hM.bool_literal]
    rfl
  · refine Meaning.initial_eq hM h.initialised h.nodup (v := ⟨c.control.event.name, ⟨_, .integer 0⟩⟩)
      (hdeclared (by simp [SequenceControl.declarations])) (fun su => ?_) st
    rw [Meaning.value, hM.integer_literal]

/-- At the start every sequence is parked in front of its script. -/
theorem parked_start (h : m.Hosts cs) (ho : Orderly m.prologue) (hM : M.Lawful) {c : Compiled}
    (hc : c ∈ cs) (st : Store R) :
    c.Parked m false (M.initial m st)
      (Script.start M st (cs.map (·.script)) c.control.index) := by
  obtain ⟨htime, hstate, hrun, hevent⟩ := h.initial_control hM hc st
  have hlayout := h.layout c hc _ (agrees_numberIn ho)
  have hcounters : c.counters.Nodup := (List.nodup_append.mp (h.books hc).nodup).2.1
  obtain ⟨ws, tail, hflow, hmeets⟩ := hlayout.meets hcounters
  rw [Script.start, h.getD_map (·.script) hc []]
  refine ⟨⟨hevent, htime, ?_⟩, ⟨0, ws, tail, hstate, hflow, [], hmeets, by simp⟩, hrun⟩
  intro q hq
  simpa [Frame.parts] using hq

end Module.Hosts

/-! ### Refinement -/

/-- **Sequences do what their scripts say.** The code of a module without a fault, run for the
sequences of its history from the initial values of all variables, logs what the scripts of the
history log: the same statements of the user, in the same order, and the same waits. This holds for
every meaning that leaves the variables of the sequencer alone, and for everything that may happen,
in any order, as long as guards hold when their sequences are woken and the counts of loops stay
what they were when the loops were entered. -/
theorem Module.sequences_refine {options : Options} {present name : String} {m₀ : Module}
    (h₀ : Module.new? options present name = .ok m₀) (history : List Operation)
    (hfault : (m₀.after history).fault = none) :
    ∃ cs, (m₀.after history).Hosts cs ∧
      cs.map (·.source) = sourcesOf (registrations options.devices history) ∧
      ∀ {R : Type} (M : Meaning R), M.Lawful →
        (∀ c ∈ cs, M.Ignores (ownedBy cs) (.condition c.guard)) →
        (∀ c ∈ cs, ∀ q ∈ partsOf c.script, M.Ignores (ownedBy cs) q) →
        ∀ firings : List (Firing R), (∀ f ∈ firings, f.Apart (ownedBy cs)) → ∀ st : Store R,
          let scripts := Script.step M (cs.map (·.control.index))
          let start : Script.Config R := ⟨M.initial (m₀.after history) st,
            Script.start M st (cs.map (·.script)), [], firings⟩
          Always scripts (·.guarded M (cs.map (·.guard)) = true) start →
          Always scripts (·.steady M = true) start →
          LogsSame scripts
            (Machine.visible (Happening.isOutward (ownedBy cs))
              (Code.step M ((m₀.after history).code cs)))
            start ⟨M.initial (m₀.after history) st, [], firings⟩ := by
  obtain ⟨cs, h, hsources⟩ := hosts_after h₀ history hfault
  have ho := orderly_after h₀ history
  refine ⟨cs, h, hsources, fun M hM hguards hignores firings hfirings st => ?_⟩
  intro scripts start hguarded hsteady
  have hidle : Idle (m₀.after history) (.timer 0) cs [] (M.initial (m₀.after history) st)
      (Script.start M st (cs.map (·.script))) :=
    ⟨fun c hc => h.parked_start ho hM hc st, by simp⟩
  have hstart : Related (m₀.after history) cs start
      ⟨M.initial (m₀.after history) st, [], firings⟩ :=
    .turns (cs.append_nil).symm (fun _ _ => rfl) hidle
  have hapart : Always scripts (fun a => ∀ f ∈ a.firings, f.Apart (ownedBy cs)) start :=
    Script.always_apart hfirings
  have hsound : Always scripts (Sound M cs) start :=
    fun n a ha => ⟨hguarded n a ha, hsteady n a ha, hapart n a ha⟩
  exact logs_same_of_simulates (h.simulates ho hM hguards hignores) ⟨hstart, hsound⟩

/-- A script that waits for a while and then prints whenever an analysis starts. -/
def announcement : List Statement :=
  [.wait (.real 2.0), .block (.whileLoop (.bool true))
    [.command (.print .strobe none "go" []), .waitFor (.initialStep [])]]

/-- A script that prints as often as a variable says and then gives the variable the value 5. -/
def rehearsal : List Statement :=
  [.block (.repeatLoop (.ident "n")) [.command (.print .strobe none "go" []), .wait (.real 2.0)],
    .command (.assign "n" ⟨_, .integer 5⟩), .waitFor (.initialStep [])]

/-- The guard of the rehearsal, a condition on its variable. -/
def rehearsalGuard : Expr .bool :=
  .comparison .lt (Comparison.definedOn_integer _) (.ident "n") (.integer 3)

/-- Both scripts in a module. -/
def rehearsalHistory : List Operation :=
  [.namedVariable "n" ⟨_, .integer 2⟩, .sequence rehearsalGuard rehearsal,
    .sequence (.bool true) announcement]

/-- What happens: both scripts start, the rehearsal has its second round, the announcement goes on,
the rehearsal ends, and the timer of the rehearsal expires although it waits for an event. At that
time the guard of the rehearsal does not hold. -/
def rehearsalFirings : List (Firing Float) :=
  [1, 2, 1, 2, 1, 1].map fun index => ⟨.timer index, id⟩

/-- The announcement has nothing to do with the variables of the sequencer. -/
theorem ignores_announcement (owned : List String) :
    ∀ q ∈ partsOf announcement, Meaning.plain.Ignores owned q := by
  intro q hq
  simp only [announcement, partsOf, Statement.wait, Statement.waitFor, Statement.parts,
    List.append_nil, List.cons_append, List.nil_append, List.mem_cons, List.not_mem_nil,
    or_false] at hq
  rcases hq with rfl | rfl | rfl | rfl
  · exact fun _ _ _ => rfl
  · exact fun _ _ _ => rfl
  · exact Meaning.ignores_print ..
  · trivial

/-- The rehearsal has nothing to do with other variables than its own. -/
theorem ignores_rehearsal {owned : List String} (hfree : "n" ∉ owned) :
    ∀ q ∈ partsOf rehearsal, Meaning.plain.Ignores owned q := by
  intro q hq
  simp only [rehearsal, partsOf, Statement.wait, Statement.waitFor, Statement.parts,
    List.append_nil, List.cons_append, List.nil_append, List.mem_cons, List.not_mem_nil,
    or_false] at hq
  rcases hq with rfl | rfl | rfl | rfl | rfl
  · exact fun _ _ => Meaning.plainInteger_ident hfree
  · exact Meaning.ignores_print ..
  · exact fun _ _ _ => rfl
  · exact Meaning.ignores_assign hfree 5
  · trivial

/-- The guard of the rehearsal reads the variable of the rehearsal only. -/
theorem ignores_rehearsalGuard {owned : List String} (hfree : "n" ∉ owned) :
    Meaning.plain.Ignores owned (.condition rehearsalGuard) := by
  intro st su hagree
  change decide (Meaning.plainInteger (.ident "n") st < 3)
    = decide (Meaning.plainInteger (.ident "n") su < 3)
  rw [Meaning.plainInteger_ident hfree hagree]

/-- Both scripts do what they say, although the guard of the rehearsal does not hold in all
stores. -/
theorem Module.sequences_refine_rehearsal :
    ∃ m₀ cs, Module.new? .standard "" "bench" = .ok m₀ ∧
      cs.map (·.script) = [rehearsal, announcement] ∧
      let m := m₀.after rehearsalHistory
      let scripts := Script.step Meaning.plain (cs.map (·.control.index))
      let st : Store Float := fun _ => .integer 0
      let start : Script.Config Float := ⟨Meaning.plain.initial m st,
        Script.start Meaning.plain st (cs.map (·.script)), [], rehearsalFirings⟩
      Always scripts (·.guarded Meaning.plain (cs.map (·.guard)) = true) start ∧
      Always scripts (·.steady Meaning.plain = true) start ∧
      LogsSame scripts
        (Machine.visible (Happening.isOutward (ownedBy cs)) (Code.step Meaning.plain (m.code cs)))
        start ⟨Meaning.plain.initial m st, [], rehearsalFirings⟩ := by
  obtain ⟨m₀, h₀⟩ : ∃ m₀, Module.new? .standard "" "bench" = .ok m₀ := ⟨_, rfl⟩
  have hfault : (m₀.after rehearsalHistory).fault = none := by
    rw [eq_of_new? h₀, ← Option.isNone_iff_eq_none]
    decide +kernel
  have hnames : (m₀.after rehearsalHistory).declaredVariables.map (·.name)
      = "n" :: ((⟨1⟩ : SequenceControl).names ++ "_$1" :: (⟨2⟩ : SequenceControl).names) := by
    rw [eq_of_new? h₀]
    decide +kernel
  obtain ⟨cs, h, hsources, hsame⟩ := Module.sequences_refine h₀ _ hfault
  have hguards : cs.map (·.guard) = [rehearsalGuard, .bool true] := by
    have hfirst := congrArg (List.map (·.1)) hsources
    rwa [List.map_map] at hfirst
  have hscripts : cs.map (·.script) = [rehearsal, announcement] := by
    have hsecond := congrArg (List.map (·.2)) hsources
    rwa [List.map_map] at hsecond
  have hindices : cs.map (·.control.index) = [1, 2] := by
    have hlength : cs.length = 2 := by simpa using congrArg List.length hscripts
    rw [h.indices, hlength]
    rfl
  have hchecked : Always (Script.step Meaning.plain [1, 2])
      (fun a => (a.guarded Meaning.plain [rehearsalGuard, .bool true]
        && a.steady Meaning.plain) = true)
      ⟨Meaning.plain.initial (m₀.after rehearsalHistory) fun _ => .integer 0,
        Script.start Meaning.plain (fun _ => .integer 0) [rehearsal, announcement], [],
        rehearsalFirings⟩ := by
    refine .of_check (k := 80) ?_
    rw [eq_of_new? h₀]
    decide +kernel
  rw [← hguards, ← hscripts, ← hindices] at hchecked
  have hguarded := fun n a ha => (Bool.and_eq_true_iff.mp (hchecked n a ha)).1
  have hsteady := fun n a ha => (Bool.and_eq_true_iff.mp (hchecked n a ha)).2
  refine ⟨m₀, cs, h₀, hscripts, hguarded, hsteady, ?_⟩
  have hfree : "n" ∉ ownedBy cs := h.first_notMem_owned hnames (by decide)
  refine hsame Meaning.plain Meaning.plain_lawful (fun c hc => ?_) (fun c hc => ?_) _
    (fun f hf => ?_) _ hguarded hsteady
  · have hc' := List.mem_map_of_mem (f := (·.guard)) hc
    rw [hguards] at hc'
    simp only [List.mem_cons, List.not_mem_nil, or_false] at hc'
    rcases hc' with hc' | hc' <;> rw [hc']
    · exact ignores_rehearsalGuard hfree
    · exact fun _ _ _ => rfl
  · have hc' := List.mem_map_of_mem (f := (·.script)) hc
    rw [hscripts] at hc'
    simp only [List.mem_cons, List.not_mem_nil, or_false] at hc'
    rcases hc' with hc' | hc' <;> rw [hc']
    · exact ignores_rehearsal hfree
    · exact ignores_announcement _
  · obtain ⟨index, -, rfl⟩ := List.mem_map.mp hf
    exact Firing.apart_of_id rfl

/-- A script that gives a variable the value 2 and then, in a counting loop, the value 0. -/
def emptying (count : Expr .integer) : List Statement :=
  [.command (.assign "n" ⟨_, .integer 2⟩),
    .block (.repeatLoop count) [.command (.assign "n" ⟨_, .integer 0⟩)]]

/-- The variable and the script in a module. -/
def emptyingHistory (count : Expr .integer) : List Operation :=
  [.namedVariable "n" ⟨_, .integer 0⟩, .sequence (.bool true) (emptying count)]

/-- What the script is laid out as. -/
def emptyingFragment (x : String) (count : Expr .integer) : Sequence.Fragment :=
  ⟨[⟨[.placed (.command (.assign "n" ⟨_, .integer 2⟩)), .counting (.assign x ⟨_, .integer 0⟩)],
      .jump 1⟩,
    ⟨[], .branch (.comparison .lt (Comparison.definedOn_integer _) (.ident x) count) 2 3⟩,
    ⟨[.placed (.command (.assign "n" ⟨_, .integer 0⟩)), .counting (.increment x)], .jump 1⟩], []⟩

/-- What the script is compiled to. -/
def Compiled.emptying (count : Expr .integer) : Compiled :=
  ⟨⟨1⟩, .bool true, Stimulus.emptying count, emptyingFragment "_$1" count, ["_$1"]⟩

/-- The script has one layout, but for the name of its counter. -/
theorem Sequence.Layout.emptying_eq {number : Event → Nat} {count : Expr .integer}
    {counters : List String} {f : Fragment} (h : Layout number 0 [] (emptying count) counters f) :
    ∃ x, counters = [x] ∧ f = emptyingFragment x count := by
  cases h with
  | wait h => cases h
  | loop h => cases h
  | work hfirst hrest =>
      cases hfirst
      cases hrest with
      | wait h => cases h
      | work h => cases h
      | loop hshape hbody hend =>
          cases hend
          cases hshape with
          | repeatLoop count body counter =>
              cases hbody with
              | wait h => cases h
              | loop h => cases h
              | work h hbody =>
                  cases h
                  cases hbody
                  exact ⟨_, rfl, rfl⟩

/-- **A loop whose body lowers its count.** The script runs the body of the loop twice, as the count
says when the loop is entered. The code runs it once, and so it does not log what the script
logs. -/
theorem Module.log_short_of_lowered_count :
    ∃ m₀, Module.new? .standard "" "bench" = .ok m₀ ∧
      (m₀.after (emptyingHistory (.ident "n"))).fault = none ∧
      (m₀.after (emptyingHistory (.ident "n"))).Hosts [.emptying (.ident "n")] ∧
      let m := m₀.after (emptyingHistory (.ident "n"))
      let cs := [Compiled.emptying (.ident "n")]
      let st : Store Float := fun _ => .integer 0
      ¬ LogsSame (Script.step Meaning.plain (cs.map (·.control.index)))
        (Machine.visible (Happening.isOutward (ownedBy cs)) (Code.step Meaning.plain (m.code cs)))
        ⟨Meaning.plain.initial m st, Script.start Meaning.plain st (cs.map (·.script)), [],
          [⟨.timer 1, id⟩]⟩
        ⟨Meaning.plain.initial m st, [], [⟨.timer 1, id⟩]⟩ := by
  obtain ⟨m₀, h₀⟩ : ∃ m₀, Module.new? .standard "" "bench" = .ok m₀ := ⟨_, rfl⟩
  have hfault : (m₀.after (emptyingHistory (.ident "n"))).fault = none := by
    rw [eq_of_new? h₀, ← Option.isNone_iff_eq_none]
    decide +kernel
  have hnames : (m₀.after (emptyingHistory (.ident "n"))).declaredVariables.map (·.name)
      = "n" :: ((⟨1⟩ : SequenceControl).names ++ ["_$1"]) := by
    rw [eq_of_new? h₀]
    decide +kernel
  obtain ⟨cs, h, hsources⟩ := hosts_after h₀ _ hfault
  obtain rfl := h.eq_singleton (orderly_after h₀ _) hsources (·.emptying_eq) hnames
  refine ⟨m₀, h₀, hfault, h, ?_⟩
  intro m cs st hsame
  -- The script logs four statements, and the code has ended after three.
  have hscript : (log (Script.step Meaning.plain (cs.map (·.control.index))) 20
      ⟨Meaning.plain.initial m st, Script.start Meaning.plain st (cs.map (·.script)), [],
        [⟨.timer 1, id⟩]⟩).length = 4 := by
    simp only [m, cs, st, eq_of_new? h₀]
    decide +kernel
  have hended : check (Machine.visible (Happening.isOutward (ownedBy cs))
      (Code.step Meaning.plain (m.code cs))) (fun _ => true) 60
      ⟨Meaning.plain.initial m st, [], [⟨.timer 1, id⟩]⟩ = true := by
    simp only [m, cs, st, eq_of_new? h₀]
    decide +kernel
  have hcode : (log (Machine.visible (Happening.isOutward (ownedBy cs))
      (Code.step Meaning.plain (m.code cs))) 60
      ⟨Meaning.plain.initial m st, [], [⟨.timer 1, id⟩]⟩).length = 3 := by
    simp only [m, cs, st, eq_of_new? h₀]
    decide +kernel
  obtain ⟨n, hn⟩ := (hsame _).mp ⟨20, List.prefix_refl _⟩
  have hle := (hn.trans (log_of_check hended n)).length_le
  omega

end Stimulus
