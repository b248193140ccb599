import Mathlib.Data.List.Induction
import Mathlib.Order.Bounds.Defs
import Stimulus.Proofs.Build
import Stimulus.StateChart

/-!
# The calls that make a state chart

A chart is made by calls that allocate states and seal them, in any order. Some of the calls are
refused. What a chart holds can be told from the calls alone: there are as many states as were
allocated, and a state has the statements of the first call that seals it after it was allocated.
All other calls that want to seal it are refused, and a call that is refused leaves the chart as it
is.

## Main definitions

* `StateChart.Call`, `StateChart.after`: a chart after some calls.
* `StateChart.allocated`, `StateChart.sealedWith?`: what is told from the calls alone.

## Main results

* `StateChart.count_after`, `StateChart.body?_after`: a chart holds what is told from its calls.
* `StateChart.sealedWith?_eq_some`: the call that has sealed a state.
* `StateChart.case?_error`, `StateChart.case?_ok`: when a chart becomes a case, and which one.
* `StateChart.bookkeeping`: all of it, for every list of calls.
-/

namespace Stimulus

open Build

namespace StateChart

/-! ### Calls -/

/-- What is asked of a chart while it is made. -/
inductive Call where
  | allocate
  | sealing (state : Nat) (body : List Statement)

/-- Whether a call allocates a state. -/
def Call.isAllocation : Call → Bool
  | .allocate => true
  | .sealing .. => false

/-- The chart after a call, unless the call is refused. -/
def answer? (c : StateChart) : Call → Except Fault StateChart
  | .allocate => .ok c.allocate.2
  | .sealing state body => c.seal? state body

/-- The chart after some calls. A call that is refused leaves the chart as it is. -/
def after (c : StateChart) : List Call → StateChart
  | [] => c
  | call :: rest =>
    match c.answer? call with
    | .ok c' => c'.after rest
    | .error _ => c.after rest

/-- How many states there are after some calls. One was there before. -/
def allocated (calls : List Call) : Nat :=
  1 + calls.countP Call.isAllocation

/-- The statements of the first call that seals a state when it is allocated, if there are `count`
states before the calls. -/
def sealing? (state count : Nat) : List Call → Option (List Statement)
  | [] => none
  | .allocate :: rest => sealing? state (count + 1) rest
  | .sealing target body :: rest =>
    if target = state ∧ state < count then some body else sealing? state count rest

/-- The statements with which a state is sealed by some calls. -/
def sealedWith? (calls : List Call) (state : Nat) : Option (List Statement) :=
  sealing? state 1 calls

variable {c : StateChart} {calls : List Call} {state : Nat} {body : List Statement}

/-! ### Sealing -/

/-- A state is sealed if it is allocated and not sealed already. -/
theorem seal?_ok {c' : StateChart} : c.seal? state body = .ok c' ↔
    (state < c.count ∧ c.body? state = none) ∧ c' = ⟨c.count, (state, body) :: c.sealed⟩ := by
  unfold seal?
  split
  case isTrue hcount => simp [Nat.not_lt.mpr hcount]
  case isFalse hcount =>
    split
    case isTrue hsealed => simp [Option.isSome_iff_ne_none.mp hsealed]
    case isFalse hsealed =>
      rw [Except.ok.injEq, and_iff_right
        ⟨Nat.not_le.mp hcount, Option.not_isSome_iff_eq_none.mp hsealed⟩]
      exact eq_comm

/-- A state that is not allocated is refused, and so is one that is sealed. -/
theorem seal?_error {f : Fault} : c.seal? state body = .error f ↔
    (c.count ≤ state ∧ f = .misplaced (.unallocatedState state)) ∨
    (state < c.count ∧ (c.body? state).isSome ∧ f = .misplaced (.resealedState state)) := by
  unfold seal?
  split
  case isTrue hcount => simp [hcount, Nat.not_lt.mpr hcount, eq_comm (a := f)]
  case isFalse hcount =>
    split
    case isTrue hsealed => simp [hcount, Nat.not_le.mp hcount, hsealed, eq_comm (a := f)]
    case isFalse hsealed => simp [hcount, hsealed]

/-- Sealing gives a state its statements and leaves the other states alone. -/
theorem body?_sealed (c : StateChart) (state n : Nat) (body : List Statement) :
    body? ⟨c.count, (state, body) :: c.sealed⟩ n = if n = state then some body else c.body? n := by
  rw [body?, List.lookup_cons, body?]
  by_cases h : n = state
  · simp [h]
  · simp [h, beq_eq_false_iff_ne.mpr h]

/-! ### Charts after calls -/

/-- Calls that come one after the other. -/
theorem after_append (c : StateChart) (calls more : List Call) :
    c.after (calls ++ more) = (c.after calls).after more := by
  induction calls generalizing c with
  | nil => rfl
  | cons call rest ih =>
      rw [List.cons_append, after, after]
      split
      · exact ih _
      · exact ih _

/-- A call that is refused leaves the chart as it is. -/
theorem after_refused {call : Call} {f : Fault} (h : c.answer? call = .error f) :
    c.after [call] = c := by
  rw [after, h, after]

/-- There are as many states as were allocated, be they sealed or not. -/
theorem count_after (c : StateChart) (calls : List Call) :
    (c.after calls).count = c.count + calls.countP Call.isAllocation := by
  induction calls generalizing c with
  | nil => rfl
  | cons call rest ih =>
      rw [after, List.countP_cons]
      cases call with
      | allocate =>
          have hcount : c.allocate.2.count = c.count + 1 := rfl
          rw [answer?, Call.isAllocation, if_pos rfl]
          dsimp only
          rw [ih, hcount]
          omega
      | sealing target body =>
          rw [answer?, Call.isAllocation, if_neg Bool.false_ne_true, Nat.add_zero]
          split
          case h_1 c' h =>
            obtain ⟨-, rfl⟩ := seal?_ok.mp h
            exact ih _
          case h_2 => exact ih c

/-- **A state has the statements of the first call that seals it** when it is allocated, unless it
was sealed before. -/
theorem body?_after (c : StateChart) (calls : List Call) (n : Nat) :
    (c.after calls).body? n = (c.body? n).or (sealing? n c.count calls) := by
  induction calls generalizing c with
  | nil => exact (Option.or_none).symm
  | cons call rest ih =>
      rw [after]
      cases call with
      | allocate =>
          rw [answer?, sealing?]
          exact ih _
      | sealing target body =>
          rw [answer?, sealing?]
          split
          case h_1 c' h =>
            obtain ⟨⟨hcount, hfree⟩, rfl⟩ := seal?_ok.mp h
            rw [ih, body?_sealed]
            by_cases hn : n = target
            · rw [if_pos hn, if_pos ⟨hn.symm, hn ▸ hcount⟩, hn, hfree, Option.some_or,
                Option.none_or]
            · rw [if_neg hn, if_neg fun h => hn h.1.symm]
          case h_2 f h =>
            rw [ih]
            split
            case isFalse => rfl
            case isTrue hn =>
              -- The state is allocated, so it was sealed before: the call changes nothing.
              obtain ⟨rfl, hcount⟩ := hn
              rcases seal?_error.mp h with ⟨hle, -⟩ | ⟨-, hsealed, -⟩
              · exact absurd hcount (Nat.not_lt.mpr hle)
              · obtain ⟨before, hbefore⟩ := Option.isSome_iff_exists.mp hsealed
                rw [hbefore, Option.some_or, Option.some_or]

/-- A new chart after some calls has as many states as they allocate. -/
theorem count_start (calls : List Call) : (start.after calls).count = allocated calls :=
  count_after start calls

/-- A new chart after some calls holds the statements with which they seal its states. -/
theorem body?_start (calls : List Call) (n : Nat) :
    (start.after calls).body? n = sealedWith? calls n :=
  body?_after start calls n

/-- What seals a state in two lists of calls is in the first one, or else in the second one. -/
theorem sealing?_append (state count : Nat) (calls more : List Call) :
    sealing? state count (calls ++ more) = (sealing? state count calls).or
      (sealing? state (count + calls.countP Call.isAllocation) more) := by
  induction calls generalizing count with
  | nil => exact (Option.none_or).symm
  | cons call rest ih =>
      cases call with
      | allocate =>
          rw [List.cons_append, sealing?, sealing?, ih, List.countP_cons_of_pos rfl,
            Nat.add_assoc count 1, Nat.add_comm 1]
      | sealing target body =>
          rw [List.cons_append, sealing?, sealing?, List.countP_cons_of_neg Bool.false_ne_true, ih]
          split
          · rw [Option.some_or]
          · rfl

/-- **The call that has sealed a state** came when the state was allocated and not sealed yet. -/
theorem sealedWith?_eq_some : sealedWith? calls state = some body ↔
    ∃ before rest, calls = before ++ .sealing state body :: rest ∧
      state < allocated before ∧ sealedWith? before state = none := by
  constructor
  · intro h
    induction calls using List.reverseRecOn with
    | nil => cases h
    | append_singleton calls call ih =>
        rw [sealedWith?, sealing?_append] at h
        cases hbefore : sealing? state 1 calls with
        | some found =>
            rw [hbefore, Option.some_or] at h
            obtain ⟨before, rest, rfl, hcall⟩ := ih (hbefore.trans h)
            exact ⟨before, rest ++ [call], by simp, hcall⟩
        | none =>
            rw [hbefore, Option.none_or] at h
            cases call with
            | allocate => cases h
            | sealing target found =>
                rw [sealing?] at h
                split at h
                case isFalse => cases h
                case isTrue htarget =>
                  obtain ⟨rfl, hcount⟩ := htarget
                  obtain rfl := Option.some.inj h
                  exact ⟨calls, [], rfl, hcount, hbefore⟩
  · rintro ⟨before, rest, rfl, hcount, hfree⟩
    have hfree : sealing? state 1 before = none := hfree
    rw [sealedWith?, sealing?_append, hfree, Option.none_or, sealing?]
    exact if_pos ⟨rfl, hcount⟩

/-! ### Finished charts -/

/-- Reading the statements of several states succeeds if all of them are sealed. -/
theorem mapM_sealedBody?_ok {states : List Nat} {bodies : List (List Statement)} :
    states.mapM c.sealedBody? = .ok bodies ↔ states.map c.body? = bodies.map some := by
  induction states generalizing bodies with
  | nil => cases bodies <;> simp [pure, Except.pure]
  | cons n rest ih =>
      rw [List.mapM_cons, check_bind_ok]
      cases hn : c.body? n with
      | none => cases bodies <;> simp [sealedBody?, hn]
      | some body =>
          simp only [sealedBody?, hn, Except.ok.injEq, exists_eq_left', check_bind_ok, ih]
          cases bodies with
          | nil => simp [pure, Except.pure]
          | cons first others =>
              simp only [pure, Except.pure, Except.ok.injEq, List.map_cons, hn, List.cons.injEq,
                Option.some.injEq]
              constructor
              · rintro ⟨_, h, rfl, rfl⟩
                exact ⟨rfl, h⟩
              · rintro ⟨rfl, h⟩
                exact ⟨_, h, rfl, rfl⟩

/-- Reading the statements of several states fails at the first one that is not sealed. -/
theorem mapM_sealedBody?_error {states : List Nat} {f : Fault} :
    states.mapM c.sealedBody? = .error f ↔ ∃ n, f = .misplaced (.unsealedState n) ∧
      states.find? (fun n => (c.body? n).isNone) = some n := by
  induction states with
  | nil => simp [pure, Except.pure]
  | cons n rest ih =>
      rw [List.mapM_cons, List.find?_cons]
      cases hn : c.body? n with
      | none =>
          have hread : c.sealedBody? n = .error (.misplaced (.unsealedState n)) := by
            rw [sealedBody?, hn]
          rw [hread]
          simp [bind, Except.bind, eq_comm]
      | some body =>
          have hread : c.sealedBody? n = .ok body := by
            rw [sealedBody?, hn]
          rw [hread]
          refine Iff.trans ?_ ih
          cases rest.mapM c.sealedBody? <;> simp [bind, Except.bind, pure, Except.pure]

/-- **A chart with a gap** does not become a case: the first state that is not sealed is
reported. -/
theorem case?_error {scrutinee : Expr .integer} {f : Fault} :
    c.case? scrutinee = .error f ↔ ∃ n, f = .misplaced (.unsealedState n) ∧
      IsLeast {k | k < c.count ∧ c.body? k = none} n := by
  have hcase : c.case? scrutinee = .error f
      ↔ (List.range c.count).mapM c.sealedBody? = .error f := by
    rw [case?]
    cases (List.range c.count).mapM c.sealedBody? <;> simp [bind, Except.bind, pure, Except.pure]
  rw [hcase, mapM_sealedBody?_error]
  simp only [List.find?_range_eq_some, Option.isNone_iff_eq_none, Bool.not_eq_true',
    Option.isNone_eq_false_iff, List.mem_range]
  refine exists_congr fun n => and_congr_right fun _ => ⟨?_, ?_⟩
  · rintro ⟨hfree, hn, hbefore⟩
    refine ⟨⟨hn, hfree⟩, fun k ⟨_, hk⟩ => Nat.le_of_not_lt fun hlt => ?_⟩
    have := hbefore k hlt
    rw [hk] at this
    cases this
  · rintro ⟨⟨hn, hfree⟩, hleast⟩
    refine ⟨hfree, hn, fun k hlt => Option.isSome_iff_ne_none.mpr fun hk => ?_⟩
    exact Nat.not_lt.mpr (hleast ⟨Nat.lt_trans hlt hn, hk⟩) hlt

/-- **A chart without gaps** becomes a case with one arm for each state, in the order of the
states. -/
theorem case?_ok {scrutinee : Expr .integer} {table : CaseTable} :
    c.case? scrutinee = .ok table ↔ ∃ bodies, table = .numbered scrutinee bodies ∧
      (List.range c.count).map c.body? = bodies.map some := by
  rw [case?, check_bind_ok]
  simp only [mapM_sealedBody?_ok, pure, Except.pure, Except.ok.injEq]
  exact exists_congr fun bodies => ⟨fun h => ⟨h.2.symm, h.1⟩, fun h => ⟨h.2, h.1.symm⟩⟩

/-- The arms of the case are numbered from 0, and each has the spliced statements of its state. -/
theorem arms_case? {scrutinee : Expr .integer} {table : CaseTable}
    (h : c.case? scrutinee = .ok table) :
    table.scrutinee = ⟨_, scrutinee⟩ ∧ table.arms.length = c.count ∧
      ∀ n < c.count, ∃ body, c.body? n = some body ∧
        table.arms[n]? = some (.mk (some ⟨_, .integer n⟩) (leavesOf body)) := by
  obtain ⟨bodies, rfl, hbodies⟩ := case?_ok.mp h
  have hlength : bodies.length = c.count := by
    simpa using congrArg List.length hbodies.symm
  refine ⟨rfl, by simp [CaseTable.numbered, hlength], fun n hn => ?_⟩
  have hn' : n < bodies.length := hlength ▸ hn
  have hbody : c.body? n = some bodies[n] := by
    have := congrArg (·[n]?) hbodies
    simpa [hn, hn'] using this
  refine ⟨bodies[n], hbody, ?_⟩
  simp [CaseTable.numbered, hn']

/-- **The bookkeeping of a chart.** After any calls, refused ones included: there are as many
states as were allocated. A state is sealed if it is allocated and was not sealed before; every
other call that wants to seal a state is refused and leaves the chart as it is. The chart becomes a
case exactly if all states are sealed; else the first one that is not is reported. The arms of the
case are those of all states in order, and each has the spliced statements of the one call that has
sealed its state. -/
theorem bookkeeping (calls : List Call) (scrutinee : Expr .integer) :
    let c := start.after calls
    let n := allocated calls
    c.count = n ∧
    (∀ state body, sealedWith? calls state = some body ↔
      ∃ before rest, calls = before ++ .sealing state body :: rest ∧
        ∃ c', (start.after before).seal? state body = .ok c') ∧
    (∀ state body, (∃ c', c.seal? state body = .ok c') ↔
      state < n ∧ sealedWith? calls state = none) ∧
    (∀ state body f, c.seal? state body = .error f →
      f = .misplaced (if n ≤ state then .unallocatedState state else .resealedState state) ∧
      start.after (calls ++ [.sealing state body]) = c) ∧
    ((∃ table, c.case? scrutinee = .ok table) ↔
      ∀ state < n, (sealedWith? calls state).isSome) ∧
    (∀ f, c.case? scrutinee = .error f ↔ ∃ state, f = .misplaced (.unsealedState state) ∧
      IsLeast {k | k < n ∧ sealedWith? calls k = none} state) ∧
    ∀ table, c.case? scrutinee = .ok table →
      table.scrutinee = ⟨_, scrutinee⟩ ∧ table.arms.length = n ∧
      ∀ state < n, ∃ body, sealedWith? calls state = some body ∧
        table.arms[state]? = some (.mk (some ⟨_, .integer state⟩) (leavesOf body)) := by
  intro c n
  have hcount : c.count = n := count_start calls
  have hbody (k : Nat) : c.body? k = sealedWith? calls k := body?_start calls k
  have haccepted (calls : List Call) (state : Nat) (body : List Statement) :
      (∃ c', (start.after calls).seal? state body = .ok c') ↔
        state < allocated calls ∧ sealedWith? calls state = none := by
    simp only [seal?_ok, exists_and_left, exists_eq, and_true, count_start, body?_start]
  refine ⟨hcount, fun state body => ?_, haccepted calls, fun state body f h => ⟨?_, ?_⟩,
    ⟨?_, fun hall => ?_⟩, fun f => ?_, fun table h => ?_⟩
  · rw [sealedWith?_eq_some]
    simp only [haccepted]
  · rw [← hcount]
    rcases seal?_error.mp h with ⟨hle, rfl⟩ | ⟨hlt, -, rfl⟩
    · rw [if_pos hle]
    · rw [if_neg (Nat.not_le.mpr hlt)]
  · rw [after_append]
    exact after_refused h
  · rintro ⟨table, h⟩ state hstate
    obtain ⟨body, hsealed, -⟩ := (arms_case? h).2.2 state (hcount ▸ hstate)
    rw [← hbody, hsealed, Option.isSome_some]
  · cases h : c.case? scrutinee with
    | ok table => exact ⟨table, rfl⟩
    | error f =>
        obtain ⟨k, -, ⟨hk, hfree⟩, -⟩ := case?_error.mp h
        have := hall k (hcount ▸ hk)
        rw [← hbody, hfree] at this
        cases this
  · rw [case?_error, hcount]
    simp only [hbody]
  · rw [← hcount]
    simpa only [hbody] using arms_case? h

/-- A chart with two states, sealed in reverse order. A state that does not exist and a state that
is sealed already are refused in between. -/
theorem bookkeeping_reverse :
    let a : Statement := .command (.toggle "a")
    let b : Statement := .command (.toggle "b")
    let calls : List Call :=
      [.sealing 1 [b], .allocate, .sealing 1 [.list [a, .list [b]], a], .sealing 1 [a],
        .sealing 0 []]
    ∃ table, (start.after calls).case? (.ident "state") = .ok table ∧
      table.arms = [.mk (some ⟨_, .integer 0⟩) [], .mk (some ⟨_, .integer 1⟩) [a, b, a]] := by
  intro a b calls
  obtain ⟨-, -, -, -, hcase, -, hall⟩ := bookkeeping calls (.ident "state")
  have htwo : allocated calls = 2 := rfl
  have hsealed (state : Nat) (hstate : state < allocated calls) :
      (sealedWith? calls state).isSome := by
    match state with
    | 0 => rfl
    | 1 => rfl
    | state + 2 => omega
  obtain ⟨table, htable⟩ := hcase.mpr hsealed
  obtain ⟨-, hlength, harms⟩ := hall table htable
  obtain ⟨first, hfirst, hzero⟩ := harms 0 (by omega)
  obtain ⟨second, hsecond, hone⟩ := harms 1 (by omega)
  obtain rfl : [] = first := Option.some.inj hfirst
  obtain rfl : [.list [a, .list [b]], a] = second := Option.some.inj hsecond
  refine ⟨table, htable, List.ext_getElem? fun n => ?_⟩
  match n with
  | 0 => exact hzero
  | 1 => exact hone
  | n + 2 =>
      rw [List.getElem?_eq_none (by omega)]
      rfl

end StateChart

end Stimulus
