import Stimulus.Proofs.Run.Loops
import Stimulus.Proofs.Run.Visits

/-!
# The rounds of counting loops

The test of a counting loop compares the counter of the loop with the count, and it reads the count
anew each time. So a sequence runs the body again as long as fewer rounds are done than the count
says **now**. If the value of the count stays the same, there are as many rounds as it says, just as
for the same loop outside of a sequence.

## Main definitions

* `Compiled.Passage`: the visits of a sequence from the test of a loop to where it leaves the loop.
* `Compiled.Traverses`: a sequence enters a loop and leaves it.

## Main results

* `Sequence.LoopAt.passage_of_traverses`: between the head of a loop and its exit there is a passage
  that starts without any rounds done.
* `Module.repeat_passages`: this for all runs of all sequences of a module.
-/

namespace Stimulus

open Machine Sequence

/-! ### Rounds -/

namespace Compiled

variable {R : Type}

/-- **A stretch of a body**: the visits from a state of the body on, along the tails of the flow,
until the last state of the body. -/
inductive Stretch (c : Compiled) (entry last : Nat) : Nat → List (Store R) → Prop
  | last {st : Store R} : c.InState last st → Stretch c entry last last [st]
  | next {i j : Nat} {st : Store R} {rest : List (Store R)} :
      c.InState i st → entry ≤ i → i < last →
      c.flow.Leads i j → Stretch c entry last j rest → Stretch c entry last i (st :: rest)

/-- **A passage through a counting loop** from its test on, when some rounds are done: the body is
run from its entry to its last state as long as fewer rounds are done than the count says at the
test, and for a number of rounds. -/
inductive Passage (c : Compiled) (M : Meaning R) (count : Expr .integer) (head last : Nat) :
    Nat → Nat → List (Store R) → Prop
  | leave {done : Nat} {st : Store R} : c.InState (head + 1) st → M.integer count st ≤ done →
      Passage c M count head last done 0 [st]
  | again {done rounds : Nat} {st : Store R} {round rest : List (Store R)} :
      c.InState (head + 1) st → done < M.integer count st →
      c.Stretch (head + 2) last (head + 2) round →
      Passage c M count head last (done + 1) rounds rest →
      Passage c M count head last done (rounds + 1) (st :: round ++ rest)

/-- The test comes first in a passage, and it is passed once more than there are rounds. -/
theorem Passage.rounds_eq {c : Compiled} {M : Meaning R} {count : Expr .integer}
    {head last done rounds : Nat} {visits : List (Store R)}
    (h : c.Passage M count head last done rounds visits) {n : Int}
    (hcount : ∀ st ∈ visits, c.InState (head + 1) st → M.integer count st = n) :
    rounds = (n - done).toNat := by
  induction h with
  | leave hat hle =>
      have := hcount _ List.mem_cons_self hat
      omega
  | again hat hlt _ _ ih =>
      have hfirst := hcount _ List.mem_cons_self hat
      have hrest := ih fun st hst => hcount st (List.mem_append_right _ hst)
      push_cast at hrest
      omega

/-- What a visit of a state tells about the next visit. -/
theorem Heads.of_inState {c : Compiled} {M : Meaning R} {i next : Nat} {s : State}
    {visited st : Store R} (h : c.Heads M next st (some visited)) (hat : c.InState i visited)
    (hflow : c.flow[i]? = some s) :
    next ∈ s.tail.targets ∧ (∀ x ∈ c.counters, st x = tallied x s.work (visited x)) ∧
      (s.work = [] →
        s.tail.Chooses M (visited.set c.control.running.name (.integer 1)) next) := by
  obtain ⟨j, t, hj, ht, hrest⟩ := h
  obtain rfl := hat.inj hj
  rw [hflow] at ht
  obtain rfl := Option.some.inj ht
  exact hrest

end Compiled

namespace Sequence.LoopAt

variable {R : Type} {M : Meaning R} {number : Event → Nat} {c : Compiled} {x : String}
  {count : Expr .integer} {body : List Statement} {head last : Nat}
  (h : LoopAt number c.flow x count body head last) (hx : x ∈ c.counters)

include h hx

/-- **A visit of the test** is followed by the body exactly if the count says more than the counter
of the loop. -/
theorem next_of_test (hM : M.Lawful) (hrunning : x ≠ c.control.running.name)
    (hcount : ∀ st : Store R, M.integer count (st.set c.control.running.name (.integer 1))
      = M.integer count st)
    {visited st : Store R} {done next : Nat} (hheads : c.Heads M next st (some visited))
    (hat : c.InState (head + 1) visited) (hdone : visited x = .integer done) :
    next = (if done < M.integer count visited then head + 2 else last + 1) ∧
      st x = .integer done := by
  obtain ⟨-, hcounters, hchooses⟩ := hheads.of_inState hat h.tests
  have hcond : M.bool (Expr.comparison .lt rfl (.ident x) count)
      (visited.set c.control.running.name (.integer 1))
      = decide ((done : Int) < M.integer count visited) := by
    refine (hM.lt _ _ _).trans ?_
    have hkept : visited.set c.control.running.name (.integer 1) x = .integer done := by
      rw [visited.set_of_ne _ hrunning, hdone]
    rw [hM.integer_ident _ _ _ hkept, hcount]
  have hnext := hchooses rfl
  rw [Tail.Chooses, hcond] at hnext
  refine ⟨?_, (hcounters x hx).trans hdone⟩
  rw [hnext]
  by_cases hlt : (done : Int) < M.integer count visited
  · simp [hlt]
  · simp [hlt]

/-- **What a sequence visits before it leaves a loop.** From the test on it is a passage, and from a
state of the body on it is a stretch of the body and then a passage. The induction is on the
visits. -/
theorem passage_of_chained (hM : M.Lawful) (hrunning : x ≠ c.control.running.name)
    (hcount : ∀ st : Store R, M.integer count (st.set c.control.running.name (.integer 1))
      = M.integer count st)
    {left : Store R} (hleft : c.InState (last + 1) left) (after : List (Store R))
    {st : Store R} {rest : List (Store R)} (hchain : c.Chained M (some st) (rest ++ left :: after))
    (hstay : ∀ v ∈ rest, ¬ c.InState (last + 1) v) {done : Nat} (hdone : st x = .integer done) :
    (c.InState (head + 1) st → ∃ rounds, c.Passage M count head last done rounds (st :: rest)) ∧
      ∀ i, c.InState i st → head + 2 ≤ i → i ≤ last →
        ∃ round more rounds, st :: rest = round ++ more ∧ c.Stretch (head + 2) last i round ∧
          c.Passage M count head last (done + 1) rounds more := by
  have hentry := h.entry_le_last
  induction rest generalizing st done with
  | nil =>
      obtain ⟨⟨next, hnext, hheads⟩, -⟩ := hchain
      obtain rfl := hleft.inj hnext
      constructor
      · intro hat
        obtain ⟨heq, -⟩ := h.next_of_test hx hM hrunning hcount hheads hat hdone
        refine ⟨0, .leave hat ?_⟩
        by_contra hlt
        rw [if_pos (by omega)] at heq
        omega
      · -- Nothing leads from the body out of the loop.
        intro i hat hlo hhi
        rcases Nat.lt_or_eq_of_le hhi with hlt | rfl
        · obtain ⟨s, hflow, htargets, -⟩ := h.within hlo hlt
          have := htargets _ (hheads.of_inState hat hflow).1
          omega
        · obtain ⟨work, hflow, -⟩ := h.counts
          have := List.mem_singleton.mp (hheads.of_inState hat hflow).1
          omega
  | cons v rest ih =>
      obtain ⟨⟨next, hnext, hheads⟩, hrest⟩ := hchain
      have hstay' : ∀ u ∈ rest, ¬ c.InState (last + 1) u :=
        fun u hu => hstay u (List.mem_cons_of_mem _ hu)
      constructor
      · intro hat
        obtain ⟨heq, hdone'⟩ := h.next_of_test hx hM hrunning hcount hheads hat hdone
        by_cases hlt : (done : Int) < M.integer count st
        · rw [if_pos hlt] at heq
          obtain ⟨round, more, rounds, hsplit, hround, hpassage⟩ :=
            (ih hrest hstay' hdone').2 next hnext (by omega) (by omega)
          refine ⟨rounds + 1, ?_⟩
          rw [hsplit]
          rw [heq] at hround
          exact .again hat hlt hround hpassage
        · rw [if_neg hlt] at heq
          rw [heq] at hnext
          exact absurd hnext (hstay v List.mem_cons_self)
      · intro i hat hlo hhi
        rcases Nat.lt_or_eq_of_le hhi with hlt | rfl
        · obtain ⟨s, hflow, htargets, htallied⟩ := h.within hlo hlt
          obtain ⟨hnextmem, hcounters, -⟩ := hheads.of_inState hat hflow
          obtain ⟨hlo', hhi'⟩ := htargets next hnextmem
          have hdone' : v x = .integer done := by
            rw [hcounters x hx, htallied, hdone]
          obtain ⟨round, more, rounds, hsplit, hround, hpassage⟩ :=
            (ih hrest hstay' hdone').2 next hnext hlo' hhi'
          refine ⟨st :: round, more, rounds, by rw [hsplit, List.cons_append], ?_, hpassage⟩
          exact .next hat hlo hlt ⟨s, hflow, hnextmem⟩ hround
        · obtain ⟨work, hflow, htallied⟩ := h.counts
          obtain ⟨hnextmem, hcounters, -⟩ := hheads.of_inState hat hflow
          obtain rfl := List.mem_singleton.mp hnextmem
          have hdone' : v x = .integer (done + 1 : Nat) := by
            rw [hcounters x hx, hdone, htallied]
            rfl
          obtain ⟨rounds, hpassage⟩ := (ih hrest hstay' hdone').1 hnext
          exact ⟨[st], _, rounds, rfl, .last hat, hpassage⟩

end Sequence.LoopAt

namespace Compiled

variable {R : Type}

/-- Visits in a row are in a row after any of them. -/
theorem Chained.of_append {c : Compiled} {M : Meaning R} {visited : Option (Store R)}
    {before : List (Store R)} {st : Store R} {rest : List (Store R)}
    (h : c.Chained M visited (before ++ st :: rest)) : c.Chained M (some st) rest := by
  induction before generalizing visited with
  | nil => exact h.2
  | cons v before ih => exact ih h.2

/-- **A sequence enters a loop and leaves it.** These are the visits between one of the head of the
loop and the next one of the state behind the loop. -/
def Traverses (c : Compiled) (head last : Nat) (all visits : List (Store R)) : Prop :=
  ∃ before entered left after, all = before ++ entered :: (visits ++ left :: after) ∧
    c.InState head entered ∧ c.InState (last + 1) left ∧ ∀ v ∈ visits, ¬ c.InState (last + 1) v

end Compiled

namespace Sequence.LoopAt

variable {R : Type} {M : Meaning R} {number : Event → Nat} {c : Compiled} {x : String}
  {count : Expr .integer} {body : List Statement} {head last : Nat}

/-- **Between the head of a loop and its exit** there is a passage that starts without any rounds
done. -/
theorem passage_of_traverses (h : LoopAt number c.flow x count body head last)
    (hx : x ∈ c.counters) (hM : M.Lawful) (hrunning : x ≠ c.control.running.name)
    (hcount : ∀ st : Store R, M.integer count (st.set c.control.running.name (.integer 1))
      = M.integer count st)
    {visited : Option (Store R)} {all visits : List (Store R)} (hchain : c.Chained M visited all)
    (htraverses : c.Traverses head last all visits) :
    ∃ rounds, c.Passage M count head last 0 rounds visits := by
  obtain ⟨before, entered, left, after, rfl, hentered, hleft, hstay⟩ := htraverses
  have hentry := h.entry_le_last
  obtain ⟨work, hreset⟩ := h.resets
  have hrest := hchain.of_append
  cases visits with
  | nil =>
      -- The head leads to the test, which is not the exit.
      obtain ⟨⟨next, hnext, hheads⟩, -⟩ := hrest
      obtain rfl := hleft.inj hnext
      have := List.mem_singleton.mp (hheads.of_inState hentered hreset).1
      omega
  | cons v visits =>
      obtain ⟨⟨next, hnext, hheads⟩, hrest⟩ := hrest
      obtain ⟨hnextmem, hcounters, -⟩ := hheads.of_inState hentered hreset
      obtain rfl := List.mem_singleton.mp hnextmem
      have hzero : v x = .integer (0 : Nat) := by
        rw [hcounters x hx, tallied_append]
        simp [tallied, Work.tally]
      exact (h.passage_of_chained hx hM hrunning hcount hleft after hrest
        (fun u hu => hstay u (List.mem_cons_of_mem _ hu)) hzero).1 hnext

end Sequence.LoopAt

/-! ### The loop that changes its count -/

/-- The only counting loop of the script starts in state 0 and ends in state 2. -/
theorem Sequence.LoopAt.emptying_eq {number : Event → Nat} {x : String} {count : Expr .integer}
    {body : List Statement} {head last : Nat}
    (h : LoopAt number (Compiled.emptying count).flow x count body head last) :
    head = 0 ∧ last = 2 := by
  have htest := h.tests
  match head, htest with
  | 0, htest =>
      have hexit := congrArg (fun s => s.map fun s => s.tail.targets) htest
      have hexit : some [2, 3] = some [2, last + 1] := hexit
      simpa using hexit.symm
  | 1, htest => cases htest
  | 2, htest => cases htest

/-- A sequence traverses a loop if it visits the head of the loop first and the state behind the
loop last. -/
theorem Compiled.traverses_of_states {R : Type} {c : Compiled} {head last : Nat}
    {all : List (Store R)} {states : List Int}
    (h : all.map (fun st => (st c.control.state.name).integer?)
      = some (head : Int) :: (states.map some ++ [some ((last + 1 : Nat) : Int)]))
    (hstay : ((last + 1 : Nat) : Int) ∉ states) :
    ∃ visits, c.Traverses head last all visits := by
  obtain ⟨entered, rest, rfl, hentered, hrest⟩ := List.map_eq_cons_iff.mp h
  obtain ⟨visits, behind, rfl, hvisits, hbehind⟩ := List.map_eq_append_iff.mp hrest
  obtain ⟨left, rfl, hleft⟩ := List.map_eq_singleton_iff.mp hbehind
  refine ⟨visits, [], entered, left, [], rfl, Datum.eq_of_integer? hentered,
    Datum.eq_of_integer? hleft, fun v hv hat => hstay ?_⟩
  have hmem : (v c.control.state.name).integer? ∈ states.map some := by
    rw [← hvisits]
    exact List.mem_map_of_mem hv
  rw [hat] at hmem
  obtain ⟨n, hn, heq⟩ := List.mem_map.mp hmem
  rwa [← Option.some.inj heq]

/-- The visits of the script, if its timer expires once and nothing else happens. -/
def Compiled.emptyingVisits (m : Module) (count : Expr .integer) : List (Store Float) :=
  (Compiled.emptying count).visits Meaning.plain (m.code [.emptying count]) 60
    ⟨Meaning.plain.initial m fun _ => .integer 0, [], [⟨.timer 1, id⟩]⟩

/-- The script has nothing to do with the variables of the sequencer, if its count has not. -/
theorem ignores_emptying {count : Expr .integer}
    (hcount : ∀ st su, Store.AgreeOff (Compiled.emptying count).names st su →
      Meaning.plain.integer count st = Meaning.plain.integer count su) :
    ∀ q ∈ partsOf (emptying count),
      Meaning.plain.Ignores (Compiled.emptying count).names q := by
  have hfree : "n" ∉ (⟨1⟩ : SequenceControl).names ++ ["_$1"] := by decide
  intro q hq
  simp only [emptying, partsOf, Statement.parts, List.append_nil, List.cons_append,
    List.nil_append, List.mem_cons, List.not_mem_nil, or_false] at hq
  rcases hq with rfl | rfl | rfl
  · exact Meaning.ignores_assign hfree 2
  · exact hcount
  · exact Meaning.ignores_assign hfree 0

/-! ### Modules -/

/-- **Counting loops ask for their counts before each round.** In every run of a module without a
fault, each time that a sequence enters a counting loop of its script and leaves it, it runs the
body again as long as fewer rounds are done than the count says then. If the count says the same
each time, the body is run as often as by the loop itself, outside of a sequence. -/
theorem Module.repeat_passages {options : Options} {present name : String} {m₀ : Module}
    (h₀ : Module.new? options present name = .ok m₀) (history : List Operation)
    (hfault : (m₀.after history).fault = none) :
    ∃ cs, (m₀.after history).Hosts cs ∧
      cs.map (·.source) = sourcesOf (registrations options.devices history) ∧
      ∀ c ∈ cs, List.Forall₂
        (fun x (count, body) => ∃ head last,
          LoopAt (numberIn (m₀.after history).prologue) c.flow x count body head last ∧
          ∀ {R : Type} (M : Meaning R), M.Lawful →
            (∀ d ∈ cs, ∀ q ∈ partsOf d.script, M.Ignores (ownedBy cs) q) →
            ∀ firings : List (Firing R), (∀ f ∈ firings, f.Apart (ownedBy cs)) →
            ∀ (su : Store R) (steps : Nat) (visits : List (Store R)),
              c.Traverses head last (c.visits M ((m₀.after history).code cs) steps
                ⟨M.initial (m₀.after history) su, [], firings⟩) visits →
              ∃ rounds, c.Passage M count head last 0 rounds visits ∧
                ∀ n : Int,
                  (∀ st ∈ visits, c.InState (head + 1) st → M.integer count st = n) →
                  rounds = n.toNat ∧ ∀ st, M.integer count st = n →
                    M.expand st (.block (.repeatLoop count) body)
                      = some (List.replicate rounds body).flatten)
        c.counters (repeatsOf c.script) := by
  obtain ⟨cs, h, hsources⟩ := hosts_after h₀ history hfault
  have ho := orderly_after h₀ history
  refine ⟨cs, h, hsources, fun c hc => ?_⟩
  have hlayout := h.layout c hc _ (agrees_numberIn ho)
  have hloops := hlayout.loops (List.nodup_append.mp (h.books hc).nodup).2.1
    c.fragment.placed_finish
  refine List.forall₂_iff_zip.mpr ⟨hloops.length_eq, fun {x r} hmem => ?_⟩
  obtain ⟨hx, hr⟩ := List.of_mem_zip hmem
  obtain ⟨head, last, hloop⟩ := List.forall₂_zip hloops hmem
  obtain ⟨count, body⟩ := r
  refine ⟨head, last, hloop, fun M hM hignores firings hfirings su steps visits htraverses => ?_⟩
  have hbooks := h.books hc
  have hrunning : x ≠ c.control.running.name := by
    rintro rfl
    exact hbooks.counter_notMem hx (by simp [SequenceControl.names])
  -- The count does not read the flag that is set when it is asked for.
  have hcount (st : Store _) : M.integer count (st.set c.control.running.name (.integer 1))
      = M.integer count st :=
    hignores c hc _ (count_mem_partsOf hr) _ _
      (Store.AgreeOff.set (fun _ _ => rfl) hbooks.running_mem _)
  obtain ⟨rounds, hpassage⟩ := hloop.passage_of_traverses hx hM hrunning hcount
    (h.visits_chained ho hM hc hignores hfirings su steps) htraverses
  refine ⟨rounds, hpassage, fun n hn => ?_⟩
  have hrounds : rounds = n.toNat := by
    simpa using hpassage.rounds_eq hn
  refine ⟨hrounds, fun st hst => ?_⟩
  rw [Meaning.expand, hst, hrounds]

/-- The counting loop of the script asks twice for a count of 2, and it makes two rounds. -/
theorem Module.repeat_passages_twice :
    ∃ m₀ visits, Module.new? .standard "" "bench" = .ok m₀ ∧
      (m₀.after (emptyingHistory (.integer 2))).fault = none ∧
      (Compiled.emptying (.integer 2)).Traverses 0 2
        (Compiled.emptyingVisits (m₀.after (emptyingHistory (.integer 2))) (.integer 2)) visits ∧
      (Compiled.emptying (.integer 2)).Passage Meaning.plain (.integer 2) 0 2 0 2 visits := by
  obtain ⟨m₀, h₀⟩ : ∃ m₀, Module.new? .standard "" "bench" = .ok m₀ := ⟨_, rfl⟩
  have hfault : (m₀.after (emptyingHistory (.integer 2))).fault = none := by
    rw [eq_of_new? h₀, ← Option.isNone_iff_eq_none]
    decide +kernel
  have hnames : (m₀.after (emptyingHistory (.integer 2))).declaredVariables.map (·.name)
      = "n" :: ((⟨1⟩ : SequenceControl).names ++ ["_$1"]) := by
    rw [eq_of_new? h₀]
    decide +kernel
  have hstates : (Compiled.emptyingVisits (m₀.after (emptyingHistory (.integer 2)))
      (.integer 2)).map (fun st => (st "_$state_1").integer?)
      = [some 0, some 1, some 2, some 1, some 2, some 1, some 3] := by
    rw [eq_of_new? h₀]
    decide +kernel
  obtain ⟨cs, h, hsources, hloops⟩ := Module.repeat_passages h₀ _ hfault
  obtain rfl := h.eq_singleton (orderly_after h₀ _) hsources (·.emptying_eq) hnames
  have hloop := hloops _ (List.mem_singleton_self _)
  obtain ⟨⟨head, last, hat, hruns⟩, -⟩ := List.forall₂_cons.mp hloop
  obtain ⟨rfl, rfl⟩ := hat.emptying_eq
  have hignores : ∀ d ∈ [Compiled.emptying (.integer 2)], ∀ q ∈ partsOf d.script,
      Meaning.plain.Ignores (ownedBy [.emptying (.integer 2)]) q := by
    rintro d hd
    obtain rfl := List.mem_singleton.mp hd
    rw [ownedBy, List.flatMap_singleton]
    exact ignores_emptying fun _ _ _ => rfl
  have hstay : ((2 + 1 : Nat) : Int) ∉ [1, 2, 1, 2, 1] := by decide
  obtain ⟨visits, htraverses⟩ :=
    Compiled.traverses_of_states (c := .emptying (.integer 2)) hstates hstay
  obtain ⟨rounds, hpassage, hrounds⟩ := hruns Meaning.plain Meaning.plain_lawful hignores
    [⟨.timer 1, id⟩] (fun f hf => Firing.apart_of_id (by rw [List.mem_singleton.mp hf])) _ _ visits
    htraverses
  obtain ⟨rfl, -⟩ := hrounds 2 fun _ _ _ => rfl
  exact ⟨m₀, visits, h₀, hfault, htraverses, hpassage⟩

/-- **A loop whose body changes its count.** The count is 2 when the loop is entered, and the loop
outside of a sequence is two copies of its body then, but the body is run once. -/
theorem Module.repeat_passage_short :
    ∃ m₀ first visits, Module.new? .standard "" "bench" = .ok m₀ ∧
      (m₀.after (emptyingHistory (.ident "n"))).fault = none ∧
      (m₀.after (emptyingHistory (.ident "n"))).Hosts [.emptying (.ident "n")] ∧
      (Compiled.emptying (.ident "n")).Traverses 0 2
        (Compiled.emptyingVisits (m₀.after (emptyingHistory (.ident "n"))) (.ident "n"))
        (first :: visits) ∧
      (Compiled.emptying (.ident "n")).Passage Meaning.plain (.ident "n") 0 2 0 1
        (first :: visits) ∧
      Meaning.plain.integer (.ident "n") first = 2 ∧
      Meaning.plain.expand first
          (.block (.repeatLoop (.ident "n")) [.command (.assign "n" ⟨_, .integer 0⟩)])
        = some (List.replicate 2 (.command (.assign "n" ⟨_, .integer 0⟩))) := by
  obtain ⟨m₀, h₀⟩ : ∃ m₀, Module.new? .standard "" "bench" = .ok m₀ := ⟨_, rfl⟩
  have hfault : (m₀.after (emptyingHistory (.ident "n"))).fault = none := by
    rw [eq_of_new? h₀, ← Option.isNone_iff_eq_none]
    decide +kernel
  have hnames : (m₀.after (emptyingHistory (.ident "n"))).declaredVariables.map (·.name)
      = "n" :: ((⟨1⟩ : SequenceControl).names ++ ["_$1"]) := by
    rw [eq_of_new? h₀]
    decide +kernel
  have hvisits : (Compiled.emptyingVisits (m₀.after (emptyingHistory (.ident "n")))
      (.ident "n")).map (fun st => ((st "_$state_1").integer?, (st "n").integer?))
      = [(some 0, some 0), (some 1, some 2), (some 2, some 2), (some 1, some 0),
          (some 3, some 0)] := by
    rw [eq_of_new? h₀]
    decide +kernel
  obtain ⟨cs, h, hsources⟩ := hosts_after h₀ _ hfault
  obtain rfl := h.eq_singleton (orderly_after h₀ _) hsources (·.emptying_eq) hnames
  obtain ⟨entered, rest, hall, hentered, hrest⟩ := List.map_eq_cons_iff.mp hvisits
  obtain ⟨first, rest, rfl, hfirst, hrest⟩ := List.map_eq_cons_iff.mp hrest
  obtain ⟨second, rest, rfl, hsecond, hrest⟩ := List.map_eq_cons_iff.mp hrest
  obtain ⟨third, rest, rfl, hthird, hrest⟩ := List.map_eq_cons_iff.mp hrest
  obtain ⟨left, rfl, hleft⟩ := List.map_eq_singleton_iff.mp hrest
  -- What the pairs say about the state and about the variable.
  have state {v : Store Float} {i : Nat} {d : Option Int}
      (hv : ((v "_$state_1").integer?, (v "n").integer?) = (some (i : Int), d)) :
      (Compiled.emptying (.ident "n")).InState i v :=
    Datum.eq_of_integer? (congrArg (·.1) hv)
  have value {v : Store Float} {d : Option Int} {n : Int}
      (hv : ((v "_$state_1").integer?, (v "n").integer?) = (d, some n)) :
      Meaning.plain.integer (.ident "n") v = n :=
    Meaning.plain_lawful.integer_ident _ _ _ (Datum.eq_of_integer? (congrArg (·.2) hv))
  have hpassage : (Compiled.emptying (.ident "n")).Passage Meaning.plain (.ident "n") 0 2 0 1
      ([first] ++ [second] ++ [third]) := by
    refine .again (state hfirst) ?_ (.last (state hsecond)) (.leave (state hthird) ?_)
    · rw [value hfirst]
      decide
    · rw [value hthird]
      decide
  have htraverses : (Compiled.emptying (.ident "n")).Traverses 0 2
      (Compiled.emptyingVisits (m₀.after (emptyingHistory (.ident "n"))) (.ident "n"))
      [first, second, third] := by
    refine ⟨[], entered, left, [], hall, state hentered, state hleft, fun v hv hat => ?_⟩
    simp only [List.mem_cons, List.not_mem_nil, or_false] at hv
    rcases hv with rfl | rfl | rfl
    · exact absurd (hat.inj (state hfirst)) (by decide)
    · exact absurd (hat.inj (state hsecond)) (by decide)
    · exact absurd (hat.inj (state hthird)) (by decide)
  refine ⟨m₀, first, _, h₀, hfault, h, htraverses, hpassage, value hfirst, ?_⟩
  rw [Meaning.expand, value hfirst]
  rfl

end Stimulus
