import Stimulus.Proofs.Sequence.Layout
import Stimulus.Proofs.Statement.Tree

/-!
# The work of a flow

The states of a flow do the plain statements of the script, each exactly once and in the order of
the script, and besides them they only keep the counters of the loops.

## Main results

* `Sequence.Layout.user_eq`: a fragment does the plain statements of its script in order.
* `Sequence.Layout.counting_mem`: all other work resets or increments a counter of the layout.
* `Sequence.Layout.waits_eq`: a fragment waits as its script does, in the same order.
-/

namespace Stimulus

/-- The plain statements of a statement of a script, in order. -/
def Statement.plain (s : Statement) : List Statement :=
  s.parts.filterMap (·.plain?)

/-- The plain statements of a script, in order. -/
def plainOf (items : List Statement) : List Statement :=
  (partsOf items).filterMap (·.plain?)

/-- The plain statements of a script, statement by statement. -/
theorem plainOf_cons (s : Statement) (rest : List Statement) :
    plainOf (s :: rest) = s.plain ++ plainOf rest := by
  simp [plainOf, Statement.plain, partsOf]

/-- The plain statements of two scripts in a row. -/
@[simp] theorem plainOf_append (xs ys : List Statement) :
    plainOf (xs ++ ys) = plainOf xs ++ plainOf ys := by
  simp [plainOf]

/-- The plain statements of a list are those of its statements. -/
@[simp] theorem Statement.plain_list (items : List Statement) :
    (Statement.list items).plain = plainOf items := by
  simp only [plain, plainOf, parts]

/-- The plain statements of a conditional are those of its branches. -/
@[simp] theorem Statement.plain_branch (condition : Expr .bool) (yes no : List Statement) :
    (Statement.branch condition yes no).plain = plainOf yes ++ plainOf no := by
  simp [plain, plainOf, parts, Part.plain?]

/-- What a statement is placed as is its only plain statement. -/
theorem Statement.plain_of_placed? {s t : Statement} (h : s.placed? = some t) :
    s.plain = [t] := by
  unfold placed? at h
  split at h
  all_goals cases h
  all_goals simp [plain, parts, Part.plain?]

/-- A statement that waits has no plain statement. -/
theorem Statement.plain_of_waitTail? {number : Event → Nat} {next : Nat} {s : Statement}
    {tail : Sequence.Tail} (h : s.waitTail? number next = some tail) : s.plain = [] := by
  unfold waitTail? at h
  split at h
  all_goals cases h
  all_goals simp [plain, parts, Part.plain?]

/-- A statement that can be a plain one of some statements: a command, or a block under a trusted
head that is within one of them. -/
def PlainIn (items : List Statement) (t : Statement) : Prop :=
  (∃ c, t = .command c) ∨
    ∃ header body, t = .block (.raw header) body ∧ ∃ s ∈ items, t.Within s

/-- What is plain in some statements is plain in more. -/
theorem PlainIn.mono {items more : List Statement} {t : Statement} (h : PlainIn items t)
    (hsub : items ⊆ more) : PlainIn more t := by
  refine h.imp_right ?_
  rintro ⟨header, body, ht, s, hs, hwithin⟩
  exact ⟨header, body, ht, s, hsub hs, hwithin⟩

/-- What is plain in children is plain in their parent. -/
theorem PlainIn.below {s t : Statement} (h : PlainIn s.children t) : PlainIn [s] t := by
  refine h.imp_right ?_
  rintro ⟨header, body, ht, c, hc, hwithin⟩
  exact ⟨header, body, ht, s, List.mem_singleton_self s, hwithin.of_child hc⟩

/-- Plain statements are commands, and blocks under trusted heads somewhere in the script. -/
theorem plainIn_of_mem_partsOf {items : List Statement} {t : Statement}
    (h : Part.plain t ∈ partsOf items) : PlainIn items t := by
  induction items using partsOf.induct
    (fun s => Part.plain t ∈ s.parts → PlainIn [s] t) with
  | case1 c h => exact .inl ⟨c, by simpa [Statement.parts] using h⟩
  | case2 items ih h => exact PlainIn.below (ih (by rwa [Statement.parts] at h))
  | case3 condition yes no ihy ihn h =>
      have h : Part.plain t ∈ partsOf yes ∨ Part.plain t ∈ partsOf no := by
        simpa [Statement.parts] using h
      refine PlainIn.below ?_
      rcases h with h | h
      · exact (ihy h).mono (List.subset_append_left _ _)
      · exact (ihn h).mono (List.subset_append_right _ _)
  | case4 header body h =>
      obtain rfl : t = .block (.raw header) body := by simpa [Statement.parts] using h
      exact .inr ⟨header, body, rfl, _, List.mem_singleton_self _, .refl _⟩
  | case5 count body ih h => exact PlainIn.below (ih (by simpa [Statement.parts] using h))
  | case6 condition body ih h => exact PlainIn.below (ih (by simpa [Statement.parts] using h))
  | case7 start condition next body ih h =>
      have h : t = .command start ∨ Part.plain t ∈ partsOf body ∨ t = .command next := by
        simpa [Statement.parts] using h
      rcases h with rfl | h | rfl
      · exact .inl ⟨start, rfl⟩
      · exact PlainIn.below (ih h)
      · exact .inl ⟨next, rfl⟩
  | case8 event body h => simp [Statement.parts] at h
  | case9 scrutinee arms h => simp [Statement.parts] at h
  | case10 microseconds h => simp [Statement.parts] at h
  | case11 event h => simp [Statement.parts] at h
  | case12 state label h => exact .inl ⟨state.toggle, by simpa [Statement.parts] using h⟩
  | case13 => simp [partsOf] at h
  | case14 s rest ih ihrest =>
      rw [partsOf, List.mem_append] at h
      rcases h with h | h
      · exact (ih h).mono (List.cons_subset_cons s (List.nil_subset rest))
      · exact (ihrest h).mono (List.subset_cons_self s rest)

/-- A plain statement of a script is a part of it. -/
theorem mem_plainOf {items : List Statement} {t : Statement} :
    t ∈ plainOf items ↔ Part.plain t ∈ partsOf items := by
  rw [plainOf, List.mem_filterMap]
  constructor
  · rintro ⟨p, hp, hplain⟩
    cases p with
    | plain s =>
        obtain rfl := Option.some.inj hplain
        exact hp
    | _ => cases hplain
  · exact fun h => ⟨_, h, rfl⟩

namespace Sequence

/-- The statement of the script that a piece of work does, if it is one. -/
def Work.user? : Work → Option Statement
  | .placed s => some s
  | .counting _ => none

/-- All work of a fragment, in the order of its states. -/
def Fragment.work (f : Fragment) : List Work :=
  f.closed.flatMap (·.work) ++ f.pending

/-- The work of a fragment that goes on. -/
theorem Fragment.work_andThen (f g : Fragment) :
    (f.andThen g).work = f.closed.flatMap (·.work) ++ g.work := by
  simp [work, andThen]

/-- The work around the body of a loop is its plain statements. -/
theorem LoopShape.plain_eq {s : Statement} {prepare : List Work} {condition : Expr .bool}
    {next : List Work} {body : List Statement} {own : List String}
    (h : LoopShape s prepare condition next body own) :
    s.plain = prepare.filterMap (·.user?) ++ plainOf body ++ next.filterMap (·.user?) := by
  cases h <;> simp [Statement.plain, Statement.parts, Part.plain?, plainOf, Work.user?]

/-- **A fragment does the plain statements of its script**, each once and in order, after those
that were pending before. -/
theorem Layout.user_eq {number : Event → Nat} {base : Nat} {pending : List Work}
    {items : List Statement} {counters : List String} {f : Fragment}
    (h : Layout number base pending items counters f) :
    f.work.filterMap (·.user?) = pending.filterMap (·.user?) ++ plainOf items := by
  induction h with
  | nil => simp [Fragment.work, plainOf, partsOf]
  | list _ ih => rw [ih, plainOf_append, plainOf_cons, Statement.plain_list]
  | work hplaced _ ih =>
      rw [ih]
      simp [plainOf_cons, Statement.plain_of_placed? hplaced, Work.user?]
  | wait htail _ ih =>
      rw [Fragment.work_andThen, List.filterMap_append, ih]
      simp [Fragment.closing, plainOf_cons, Statement.plain_of_waitTail? htail]
  | when _ _ ihyes ih =>
      rw [Fragment.work_andThen, List.filterMap_append, ih]
      simp only [Fragment.work, List.filterMap_append, List.filterMap_nil, List.nil_append]
        at ihyes
      simp only [Fragment.when, plainOf_cons, Statement.plain_branch, ← ihyes]
      simp [plainOf, partsOf]
  | either _ _ _ _ ihyes ihno ih =>
      rw [Fragment.work_andThen, List.filterMap_append, ih]
      simp only [Fragment.work, List.filterMap_append, List.filterMap_nil, List.nil_append]
        at ihyes ihno
      simp only [Fragment.either, plainOf_cons, Statement.plain_branch, ← ihyes, ← ihno]
      simp
  | loop hshape _ _ ihbody ih =>
      rw [Fragment.work_andThen, List.filterMap_append, ih]
      simp only [Fragment.work, List.filterMap_append, List.filterMap_nil, List.nil_append]
        at ihbody
      simp only [Fragment.loop, plainOf_cons, hshape.plain_eq, ← ihbody]
      simp

/-- What is placed in a fragment is a plain statement of its script, unless it was pending
before. -/
theorem Layout.placed_mem {number : Event → Nat} {base : Nat} {pending : List Work}
    {items : List Statement} {counters : List String} {f : Fragment}
    (h : Layout number base pending items counters f) {s : Statement}
    (hs : Work.placed s ∈ f.work) : Work.placed s ∈ pending ∨ s ∈ plainOf items := by
  have hmem : s ∈ f.work.filterMap (·.user?) := List.mem_filterMap.mpr ⟨_, hs, rfl⟩
  rw [h.user_eq, List.mem_append, List.mem_filterMap] at hmem
  refine hmem.imp_left ?_
  rintro ⟨w, hw, hwuser⟩
  cases w with
  | placed t =>
      obtain rfl := Option.some.inj hwuser
      exact hw
  | counting c => cases hwuser

/-! ### Counters -/

/-- A command that keeps a counter: it resets it or increments it. -/
def Keeps (counters : List String) (c : Command) : Prop :=
  ∃ x ∈ counters, c = .assign x ⟨_, .integer 0⟩ ∨ c = .increment x

/-- A counter of some is a counter of more. -/
theorem Keeps.mono {cs ds : List String} {c : Command} (h : Keeps cs c) (hsub : cs ⊆ ds) :
    Keeps ds c := by
  obtain ⟨x, hx, hc⟩ := h
  exact ⟨x, hsub hx, hc⟩

/-- The counting around a loop keeps the counters of the loop. -/
theorem LoopShape.counting {s : Statement} {prepare : List Work} {condition : Expr .bool}
    {next : List Work} {body : List Statement} {own : List String}
    (h : LoopShape s prepare condition next body own) {c : Command}
    (hc : Work.counting c ∈ prepare ++ next) : Keeps own c := by
  cases h with
  | whileLoop => simp at hc
  | forLoop => simp at hc
  | repeatLoop count body counter =>
      refine ⟨counter.name, List.mem_singleton_self _, ?_⟩
      simpa [Variable.assign, Variable.increment] using hc

/-- **Counting** in a fragment keeps the counters of its layout, unless it was pending before. -/
theorem Layout.counting_mem {number : Event → Nat} {base : Nat} {pending : List Work}
    {items : List Statement} {counters : List String} {f : Fragment}
    (h : Layout number base pending items counters f) {c : Command}
    (hc : Work.counting c ∈ f.work) : Work.counting c ∈ pending ∨ Keeps counters c := by
  induction h with
  | nil => exact .inl (by simpa [Fragment.work] using hc)
  | list _ ih => exact ih hc
  | work _ _ ih =>
      refine (ih hc).imp_left fun h => ?_
      simpa using h
  | wait _ _ ih =>
      rw [Fragment.work_andThen, List.mem_append] at hc
      rcases hc with hc | hc
      · exact .inl (by simpa [Fragment.closing] using hc)
      · exact (ih hc).imp_left fun h => absurd h List.not_mem_nil
  | @when _ pending _ _ _ _ _ y g _ _ ihyes ih =>
      rw [Fragment.work_andThen, List.mem_append] at hc
      rcases hc with hc | hc
      · have hc : Work.counting c ∈ pending ++ y.work := by
          simpa [Fragment.when, Fragment.work] using hc
        refine (List.mem_append.mp hc).imp_right fun hy => ?_
        exact ((ihyes hy).resolve_left List.not_mem_nil).mono (List.subset_append_left _ _)
      · refine .inr (Keeps.mono ((ih hc).resolve_left List.not_mem_nil) ?_)
        exact List.subset_append_right _ _
  | @either _ pending _ _ _ _ _ _ _ y n g _ _ _ _ ihyes ihno ih =>
      rw [Fragment.work_andThen, List.mem_append] at hc
      rcases hc with hc | hc
      · have hc : Work.counting c ∈ pending ++ (y.work ++ n.work) := by
          simpa [Fragment.either, Fragment.work] using hc
        refine (List.mem_append.mp hc).imp_right fun hb => ?_
        rcases List.mem_append.mp hb with hy | hn
        · refine ((ihyes hy).resolve_left List.not_mem_nil).mono fun x hx => ?_
          exact List.mem_append_left _ (List.mem_append_left _ hx)
        · refine ((ihno hn).resolve_left List.not_mem_nil).mono fun x hx => ?_
          exact List.mem_append_left _ (List.mem_append_right _ hx)
      · refine .inr (Keeps.mono ((ih hc).resolve_left List.not_mem_nil) ?_)
        exact List.subset_append_right _ _
  | @loop _ pending _ prepare _ next _ _ _ _ _ b g hshape _ _ ihbody ih =>
      rw [Fragment.work_andThen, List.mem_append] at hc
      rcases hc with hc | hc
      · -- The first state of the loop holds what was pending, and the counter is reset there.
        have hc : Work.counting c ∈ pending ∨ Work.counting c ∈ prepare ++ next ∨
            Work.counting c ∈ b.work := by
          simp only [Fragment.loop, Fragment.work, List.cons_append, List.flatMap_cons,
            List.flatMap_append, List.flatMap_nil, List.append_nil, List.mem_append,
            List.not_mem_nil, false_or] at hc ⊢
          tauto
        rcases hc with hc | hc | hc
        · exact .inl hc
        · refine .inr ((hshape.counting hc).mono fun x hx => ?_)
          exact List.mem_append_left _ (List.mem_append_left _ hx)
        · refine .inr (((ihbody hc).resolve_left List.not_mem_nil).mono fun x hx => ?_)
          exact List.mem_append_left _ (List.mem_append_right _ hx)
      · refine .inr (Keeps.mono ((ih hc).resolve_left List.not_mem_nil) ?_)
        exact List.subset_append_right _ _

/-! ### Waits -/

/-- The wait with which a tail ends, if it does: for the event with a given number, or for the
timer. -/
def Tail.wait? : Tail → Option (Option Nat)
  | .delay _ _ => some none
  | .signal number _ => some (some number)
  | _ => none

/-- The number of the event for which a tail waits, if it waits for one. -/
def Tail.signal? (tail : Tail) : Option Nat :=
  tail.wait?.join

/-- A jump does not wait. -/
@[simp] theorem Tail.wait?_jump (next : Nat) : (jump next).wait? = none :=
  rfl

/-- A branch does not wait. -/
@[simp] theorem Tail.wait?_branch (condition : Expr .bool) (yes no : Nat) :
    (branch condition yes no).wait? = none :=
  rfl

/-- The end does not wait. -/
@[simp] theorem Tail.wait?_finish : finish.wait? = none :=
  rfl

/-- What is placed has no signals. -/
theorem signals_of_placed? {s t : Statement} (h : s.placed? = some t) : s.signals = [] := by
  unfold Statement.placed? at h
  split at h
  all_goals cases h
  all_goals simp [Statement.signals, Statement.parts, Part.signal?]

/-- The signals of a loop are those of its body. -/
theorem LoopShape.signals_eq {s : Statement} {prepare : List Work} {condition : Expr .bool}
    {next : List Work} {body : List Statement} {own : List String}
    (h : LoopShape s prepare condition next body own) : s.signals = signalsOf body := by
  cases h <;> simp

/-- **The states of a fragment wait as its script does**, for the same events and times in the same
order. -/
theorem Layout.waits_eq {number : Event → Nat} {base : Nat} {pending : List Work}
    {items : List Statement} {counters : List String} {f : Fragment}
    (h : Layout number base pending items counters f) :
    f.closed.filterMap (·.tail.wait?) = (waitsOf items).map (·.map number) := by
  have happend (xs ys : List Part) : ((xs ++ ys).filterMap (·.wait?)).map (·.map number)
      = (xs.filterMap (·.wait?)).map (·.map number)
        ++ (ys.filterMap (·.wait?)).map (·.map number) := by
    rw [List.filterMap_append, List.map_append]
  unfold waitsOf
  induction h with
  | nil => rfl
  | list _ ih => rw [ih, partsOf_append, partsOf, Statement.parts]
  | @work _ _ s _ rest _ _ hplaced _ ih =>
      have hnone : s.parts.filterMap (·.wait?) = [] := by
        unfold Statement.placed? at hplaced
        split at hplaced
        all_goals cases hplaced
        all_goals simp [Statement.parts, Part.wait?]
      rw [ih, partsOf, happend, hnone]
      rfl
  | @wait _ _ s tail rest _ _ htail _ ih =>
      rw [partsOf, happend, ← ih]
      unfold Statement.waitTail? at htail
      split at htail
      all_goals cases htail
      all_goals simp [Fragment.closing, Fragment.andThen, Statement.parts, Part.wait?, Tail.wait?]
  | when _ _ ihyes ih =>
      simp [Fragment.when, Fragment.andThen, List.filterMap_cons, ihyes, ih, partsOf,
        Statement.parts, Part.wait?]
  | either _ _ _ _ ihyes ihno ih =>
      simp [Fragment.either, Fragment.andThen, List.filterMap_cons, ihyes, ihno, ih, partsOf,
        Statement.parts, Part.wait?]
  | loop hshape _ _ ihbody ih =>
      cases hshape <;>
        simp [Fragment.loop, Fragment.andThen, List.filterMap_cons, ihbody, ih, partsOf,
          Statement.parts, Part.wait?]

/-- The last states of a flow do not wait. -/
theorem Fragment.finish_waits (f : Fragment) :
    f.finish.filterMap (·.tail.wait?) = f.closed.filterMap (·.tail.wait?) := by
  unfold finish
  split <;> simp [List.filterMap_cons]

/-- **The states of a flow wait for the events of its script**, each once and in order. -/
theorem Layout.signals_eq {number : Event → Nat} {base : Nat} {pending : List Work}
    {items : List Statement} {counters : List String} {f : Fragment}
    (h : Layout number base pending items counters f) :
    f.finish.filterMap (·.tail.signal?) = (signalsOf items).map number := by
  have hjoin : f.finish.filterMap (·.tail.signal?)
      = (f.finish.filterMap (·.tail.wait?)).filterMap id := by
    rw [List.filterMap_filterMap]
    refine List.filterMap_congr fun s _ => ?_
    rw [Tail.signal?]
    cases s.tail.wait? <;> rfl
  rw [hjoin, f.finish_waits, h.waits_eq, ← filterMap_waitsOf, List.filterMap_map,
    List.map_filterMap]
  rfl

end Sequence

end Stimulus
