import Stimulus.Proofs.Declaring
import Stimulus.Proofs.Sequence.Registering

/-!
# The layout of scripts

Compilation registers signals and declares counters while it lays out states. The relation `Layout`
keeps the layout and leaves the rest out: it says which fragment a script is laid out as, given the
numbers of events and the names of the counters. Its constructors follow the script from left to
right, so that an induction over a layout meets the statements in the order in which they run.

## Main results

* `Sequence.layout_of_compileAll`: a compiled script is laid out as the fragment that compilation
  gives, under every numbering of events that agrees with the module afterwards.
* `Sequence.Effect`: all that the compilation of a script changes in a module.
-/

namespace Stimulus

open Build

/-! ### The statements of a script -/

namespace Statement

/-- The statement that stands in a state for a statement of the script, if it is one of those that
run within a state. A mark stands for its toggle. -/
def placed? : Statement → Option Statement
  | .command c => some (.command c)
  | .block (.raw header) body => some (.block (.raw header) body)
  | .step (.mark state _) => some (.command state.toggle)
  | _ => none

/-- The tail of a state in which a script waits. -/
def waitTail? (number : Event → Nat) (next : Nat) : Statement → Option Sequence.Tail
  | .step (.delay microseconds) => some (.delay (Sequence.seconds microseconds) next)
  | .step (.signal event) => some (.signal (number event) next)
  | _ => none

end Statement

/-- What a script consists of besides its structure. -/
inductive Part where
  /-- A command or a block under a trusted head. -/
  | plain (s : Statement)
  | condition (c : Expr .bool)
  | count (n : Expr .integer)
  | delay (microseconds : Expr .real)
  | signal (event : Event)

/-- A part that is a plain statement. -/
def Part.plain? : Part → Option Statement
  | .plain s => some s
  | _ => none

/-- A part that is an event for which the script waits. -/
def Part.signal? : Part → Option Event
  | .signal event => some event
  | _ => none

/-- A part that is a wait: for an event, or for a time. -/
def Part.wait? : Part → Option (Option Event)
  | .delay _ => some none
  | .signal event => some (some event)
  | _ => none

mutual

/-- The parts of a statement of a script, in order. The initialiser of a loop comes before its
body, and its step comes after it. A mark is its toggle. Blocks under trusted heads are not looked
into, and cases and event blocks have no place in a script. -/
def Statement.parts : Statement → List Part
  | .command c => [.plain (.command c)]
  | .list items => partsOf items
  | .branch condition yes no => .condition condition :: partsOf yes ++ partsOf no
  | .block (.raw header) body => [.plain (.block (.raw header) body)]
  | .block (.repeatLoop count) body => .count count :: partsOf body
  | .block (.whileLoop condition) body => .condition condition :: partsOf body
  | .block (.forLoop start condition next) body =>
    .plain (.command start) :: .condition condition :: partsOf body ++ [.plain (.command next)]
  | .block (.onEvent _) _ => []
  | .select _ _ => []
  | .step (.delay microseconds) => [.delay microseconds]
  | .step (.signal event) => [.signal event]
  | .step (.mark state _) => [.plain (.command state.toggle)]

/-- The parts of a script, in order. -/
def partsOf : List Statement → List Part
  | [] => []
  | s :: rest => s.parts ++ partsOf rest

end

/-- The parts of two scripts in a row. -/
@[simp] theorem partsOf_append (xs ys : List Statement) :
    partsOf (xs ++ ys) = partsOf xs ++ partsOf ys := by
  induction xs with
  | nil => rfl
  | cons x xs ih => simp only [List.cons_append, partsOf, ih, List.append_assoc]

/-- The events for which a statement of a script waits, in order. -/
def Statement.signals (s : Statement) : List Event :=
  s.parts.filterMap (·.signal?)

/-- The events for which a script waits, in order. -/
def signalsOf (items : List Statement) : List Event :=
  (partsOf items).filterMap (·.signal?)

/-- The waits of a script, in order: for events, or for a time. -/
def waitsOf (items : List Statement) : List (Option Event) :=
  (partsOf items).filterMap (·.wait?)

/-- The signals of a script are its waits for events. -/
theorem filterMap_waitsOf (items : List Statement) :
    (waitsOf items).filterMap id = signalsOf items := by
  rw [waitsOf, signalsOf, List.filterMap_filterMap]
  refine List.filterMap_congr fun part _ => ?_
  cases part <;> rfl

/-- A script without statements has no signals. -/
@[simp] theorem signalsOf_nil : signalsOf [] = [] :=
  rfl

/-- The signals of a script, statement by statement. -/
theorem signalsOf_cons (s : Statement) (rest : List Statement) :
    signalsOf (s :: rest) = s.signals ++ signalsOf rest := by
  simp [signalsOf, Statement.signals, partsOf]

/-- The signals of two scripts in a row. -/
@[simp] theorem signalsOf_append (xs ys : List Statement) :
    signalsOf (xs ++ ys) = signalsOf xs ++ signalsOf ys := by
  simp [signalsOf]

/-- The signals of a list are those of its statements. -/
@[simp] theorem Statement.signals_list (items : List Statement) :
    (Statement.list items).signals = signalsOf items := by
  simp only [signals, signalsOf, parts]

/-- The signals of a conditional are those of its branches. -/
@[simp] theorem Statement.signals_branch (condition : Expr .bool) (yes no : List Statement) :
    (Statement.branch condition yes no).signals = signalsOf yes ++ signalsOf no := by
  simp [signals, signalsOf, parts, Part.signal?]

/-- The signals of a counting loop are those of its body. -/
@[simp] theorem Statement.signals_repeatLoop (count : Expr .integer) (body : List Statement) :
    (Statement.block (.repeatLoop count) body).signals = signalsOf body := by
  simp [signals, signalsOf, parts, Part.signal?]

/-- The signals of a loop are those of its body. -/
@[simp] theorem Statement.signals_whileLoop (condition : Expr .bool) (body : List Statement) :
    (Statement.block (.whileLoop condition) body).signals = signalsOf body := by
  simp [signals, signalsOf, parts, Part.signal?]

/-- The signals of a loop with a step are those of its body. -/
@[simp] theorem Statement.signals_forLoop (start : Command) (condition : Expr .bool)
    (next : Command) (body : List Statement) :
    (Statement.block (.forLoop start condition next) body).signals = signalsOf body := by
  simp [signals, signalsOf, parts, Part.signal?]

namespace Sequence

/-- How a loop is laid out: the work in front of it, the condition of its test, the work at the
end of each round, its body and the names of the counters it needs. -/
inductive LoopShape : Statement → List Work → Expr .bool → List Work → List Statement →
    List String → Prop
  | whileLoop (condition : Expr .bool) (body : List Statement) :
      LoopShape (.block (.whileLoop condition) body) [] condition [] body []
  | forLoop (start : Command) (condition : Expr .bool) (next : Command)
      (body : List Statement) :
      LoopShape (.block (.forLoop start condition next) body) [.placed (.command start)]
        condition [.placed (.command next)] body []
  | repeatLoop (count : Expr .integer) (body : List Statement) (counter : Variable .integer) :
      LoopShape (.block (.repeatLoop count) body)
        [.counting (counter.assign (.integer 0))]
        (Expr.comparison .lt rfl counter.expr count)
        [.counting counter.increment] body [counter.name]

/-- A fragment that goes on with another one. -/
def Fragment.andThen (f g : Fragment) : Fragment :=
  ⟨f.closed ++ g.closed, g.pending⟩

/-- **Layouts.** While state `base` is open and has `pending` work, a script is laid out as a
fragment. Events have the given numbers, and the counters of the loops have the given names. -/
inductive Layout (number : Event → Nat) : Nat → List Work → List Statement → List String →
    Fragment → Prop
  | nil {base : Nat} {pending : List Work} : Layout number base pending [] [] ⟨[], pending⟩
  | list {base : Nat} {pending : List Work} {items rest : List Statement}
      {counters : List String} {f : Fragment} :
      Layout number base pending (items ++ rest) counters f →
      Layout number base pending (.list items :: rest) counters f
  | work {base : Nat} {pending : List Work} {s t : Statement} {rest : List Statement}
      {counters : List String} {f : Fragment} :
      s.placed? = some t →
      Layout number base (pending ++ [.placed t]) rest counters f →
      Layout number base pending (s :: rest) counters f
  | wait {base : Nat} {pending : List Work} {s : Statement} {tail : Tail}
      {rest : List Statement} {counters : List String} {g : Fragment} :
      s.waitTail? number (base + 1) = some tail →
      Layout number (base + 1) [] rest counters g →
      Layout number base pending (s :: rest) counters
        ((Fragment.closing pending tail).andThen g)
  | when {base : Nat} {pending : List Work} {condition : Expr .bool}
      {yes rest : List Statement} {cs ds : List String} {y g : Fragment} :
      Layout number (base + 1) [] yes cs y →
      Layout number (base + 1 + y.closed.length + 1) [] rest ds g →
      Layout number base pending (.branch condition yes [] :: rest) (cs ++ ds)
        ((Fragment.when base pending condition y).andThen g)
  | either {base : Nat} {pending : List Work} {condition : Expr .bool}
      {yes no rest : List Statement} {cs ds es : List String} {y n g : Fragment} :
      no ≠ [] →
      Layout number (base + 1) [] yes cs y →
      Layout number (base + 1 + y.closed.length + 1) [] no ds n →
      Layout number (base + 1 + y.closed.length + 1 + n.closed.length + 1) [] rest es g →
      Layout number base pending (.branch condition yes no :: rest) (cs ++ ds ++ es)
        ((Fragment.either base pending condition y n).andThen g)
  | loop {base : Nat} {pending : List Work} {s : Statement} {prepare : List Work}
      {condition : Expr .bool} {next : List Work} {body rest : List Statement}
      {own cs ds : List String} {b g : Fragment} :
      LoopShape s prepare condition next body own →
      Layout number (base + 2) [] body cs b →
      Layout number (base + 2 + b.closed.length + 1) [] rest ds g →
      Layout number base pending (s :: rest) (own ++ cs ++ ds)
        ((Fragment.loop base (pending ++ prepare) condition b next).andThen g)

/-! ### Lengths and joins -/

/-- A fragment without pending work that goes on with nothing. -/
theorem Fragment.andThen_nil {f : Fragment} (h : f.pending = []) :
    f.andThen ⟨[], []⟩ = f := by
  simp [andThen, ← h]

/-- Going on is associative. -/
theorem Fragment.andThen_assoc (f g h : Fragment) :
    (f.andThen g).andThen h = f.andThen (g.andThen h) := by
  simp [andThen]

/-- How many states a fragment closes before and after it goes on. -/
@[simp] theorem Fragment.length_andThen (f g : Fragment) :
    (f.andThen g).closed.length = f.closed.length + g.closed.length := by
  simp [andThen]

/-- A wait closes one state. -/
@[simp] theorem Fragment.length_closing (pending : List Work) (tail : Tail) :
    (closing pending tail).closed.length = 1 :=
  rfl

/-- A conditional without an alternative closes two states besides those of its branch. -/
@[simp] theorem Fragment.length_when (base : Nat) (pending : List Work)
    (condition : Expr .bool) (yes : Fragment) :
    (when base pending condition yes).closed.length = yes.closed.length + 2 := by
  simp [when]

/-- A conditional with an alternative closes three states besides those of its branches. -/
@[simp] theorem Fragment.length_either (base : Nat) (pending : List Work)
    (condition : Expr .bool) (yes no : Fragment) :
    (either base pending condition yes no).closed.length
      = yes.closed.length + no.closed.length + 3 := by
  simp [either]
  omega

/-- A loop closes three states besides those of its body. -/
@[simp] theorem Fragment.length_loop (base : Nat) (pending : List Work)
    (condition : Expr .bool) (body : Fragment) (next : List Work) :
    (loop base pending condition body next).closed.length = body.closed.length + 3 := by
  simp [loop]

/-- A conditional alone is laid out as one. -/
theorem Layout.conditional {number : Event → Nat} {base : Nat} {pending : List Work}
    {condition : Expr .bool} {yes : List Statement} {cs : List String} {y : Fragment}
    (hyes : Layout number (base + 1) [] yes cs y) :
    Layout number base pending [.branch condition yes []] cs
      (Fragment.when base pending condition y) := by
  have h : Layout number base pending [.branch condition yes []] _ _ := .when hyes .nil
  rwa [Fragment.andThen_nil rfl, List.append_nil] at h

/-- A conditional with an alternative, alone, is laid out as one. -/
theorem Layout.alternative {number : Event → Nat} {base : Nat} {pending : List Work}
    {condition : Expr .bool} {yes no : List Statement} {cs ds : List String} {y n : Fragment}
    (hne : no ≠ []) (hyes : Layout number (base + 1) [] yes cs y)
    (hno : Layout number (base + 1 + y.closed.length + 1) [] no ds n) :
    Layout number base pending [.branch condition yes no] (cs ++ ds)
      (Fragment.either base pending condition y n) := by
  have h : Layout number base pending [.branch condition yes no] _ _ := .either hne hyes hno .nil
  rwa [Fragment.andThen_nil rfl, List.append_nil] at h

/-- A loop alone is laid out as one. -/
theorem Layout.rounds {number : Event → Nat} {base : Nat} {pending : List Work} {s : Statement}
    {prepare next : List Work} {condition : Expr .bool} {body : List Statement}
    {own cs : List String} {b : Fragment} (hshape : LoopShape s prepare condition next body own)
    (hbody : Layout number (base + 2) [] body cs b) :
    Layout number base pending [s] (own ++ cs)
      (Fragment.loop base (pending ++ prepare) condition b next) := by
  have h : Layout number base pending [s] _ _ := .loop hshape hbody .nil
  rwa [Fragment.andThen_nil rfl, List.append_nil] at h

/-- Where a layout starts may be written in another way. -/
theorem Layout.at_base {number : Event → Nat} {base base' : Nat} {pending : List Work}
    {xs : List Statement} {cs : List String} {f : Fragment}
    (h : Layout number base pending xs cs f) (hb : base = base') :
    Layout number base' pending xs cs f :=
  hb ▸ h

/-- **Scripts in a row** are laid out one after the other. -/
theorem Layout.append {number : Event → Nat} {base : Nat} {pending : List Work}
    {xs ys : List Statement} {cs ds : List String} {f g : Fragment}
    (hx : Layout number base pending xs cs f)
    (hy : Layout number (base + f.closed.length) f.pending ys ds g) :
    Layout number base pending (xs ++ ys) (cs ++ ds) (f.andThen g) := by
  induction hx with
  | nil => exact hy
  | list _ ih =>
      refine .list ?_
      have := ih hy
      rwa [List.append_assoc] at this
  | work hplaced _ ih => exact .work hplaced (ih hy)
  | wait htail _ ih =>
      rw [Fragment.andThen_assoc]
      refine .wait htail (ih (hy.at_base ?_))
      rw [Fragment.length_andThen, Fragment.length_closing, Nat.add_assoc]
  | when hyes _ _ ih =>
      rw [Fragment.andThen_assoc, List.append_assoc]
      refine .when hyes (ih (hy.at_base ?_))
      simp only [Fragment.length_andThen, Fragment.length_when]
      omega
  | either hno hyes hnolay _ _ _ ih =>
      rw [Fragment.andThen_assoc, List.append_assoc]
      refine .either hno hyes hnolay (ih (hy.at_base ?_))
      simp only [Fragment.length_andThen, Fragment.length_either]
      omega
  | loop hshape hbody _ _ ih =>
      rw [Fragment.andThen_assoc, List.append_assoc]
      refine .loop hshape hbody (ih (hy.at_base ?_))
      simp only [Fragment.length_andThen, Fragment.length_loop]
      omega

/-! ### What compilation changes -/

/-- The declaration of a counter. -/
def counterDeclaration (name : String) : VariableDeclaration :=
  ⟨name, ⟨_, .integer 0⟩⟩

/-- All that the compilation of a part of the script of sequence `index` changes: it registers
signals and declares counters, whose names were free before. -/
structure Effect (index : Nat) (signals : List Event) (counters : List String)
    (m m' : Module) : Prop where
  module_eq : ∃ names, m' = { m with
    names
    declaredVariables := m.declaredVariables ++ counters.map counterDeclaration
    initialisation := m.initialisation ++ (counters.map counterDeclaration).map (·.assignment)
    prologue := registeredAll index m.prologue signals }
  taken : m'.names.taken = counters.reverse ++ m.names.taken
  fresh : counters.Nodup ∧ ∀ c ∈ counters, c ∉ m.names.taken
  numbered : ∀ c ∈ counters, ∃ n, c = Name.anonymous n

namespace Effect

variable {index : Nat}

/-- Nothing is registered or declared, and nothing is changed. -/
theorem refl (m : Module) : Effect index [] [] m m := by
  refine ⟨⟨m.names, ?_⟩, by simp, by simp, by simp⟩
  simp [registeredAll]

/-- The effects of two parts in a row. -/
theorem trans {signals signals' : List Event} {cs ds : List String} {m₁ m₂ m₃ : Module}
    (h : Effect index signals cs m₁ m₂) (h' : Effect index signals' ds m₂ m₃) :
    Effect index (signals ++ signals') (cs ++ ds) m₁ m₃ := by
  obtain ⟨names, hm⟩ := h.module_eq
  obtain ⟨names', hm'⟩ := h'.module_eq
  refine ⟨⟨names', ?_⟩, ?_, ⟨?_, ?_⟩, ?_⟩
  · rw [hm', hm]
    simp [registeredAll]
  · rw [h'.taken, h.taken]
    simp
  · refine List.nodup_append.mpr ⟨h.fresh.1, h'.fresh.1, ?_⟩
    rintro a ha b hb rfl
    have := h'.fresh.2 a hb
    rw [h.taken] at this
    exact this (List.mem_append_left _ (List.mem_reverse.mpr ha))
  · intro c hc
    rcases List.mem_append.mp hc with hc | hc
    · exact h.fresh.2 c hc
    · have := h'.fresh.2 c hc
      rw [h.taken] at this
      exact fun hmem => this (List.mem_append_right _ hmem)
  · exact List.forall_mem_append.mpr ⟨h.numbered, h'.numbered⟩

/-- The shared blocks persist. -/
theorem persist {signals : List Event} {cs : List String} {m m' : Module}
    (h : Effect index signals cs m m') : Persist m.prologue m'.prologue := by
  obtain ⟨names, hm⟩ := h.module_eq
  rw [hm]
  exact Persist.registeredAll _ _ _

/-- The registration of a signal. -/
theorem of_registerSignal {event : Event} {m m' : Module} {n : Nat}
    (h : Module.registerSignal index event m = .ok n m') : Effect index [event] [] m m' := by
  obtain ⟨hm, -⟩ := Module.registerSignal_ok h
  refine ⟨⟨m.names, ?_⟩, ?_, by simp, by simp⟩
  · rw [hm]
    simp [registeredAll]
  · rw [hm]
    simp

/-- The declaration of a counter. -/
theorem of_anonymousVariable {m m' : Module} {v : Variable .integer}
    (h : Module.anonymousVariable (.integer 0) m = .ok v m') :
    Effect index [] [v.name] m m' := by
  obtain ⟨hnumbered, hfree, htaken, names, rfl⟩ := Module.anonymousVariable_ok h
  refine ⟨⟨names, rfl⟩, htaken, ⟨List.nodup_singleton _, ?_⟩, ?_⟩
  · exact List.forall_mem_singleton.mpr hfree
  · exact List.forall_mem_singleton.mpr hnumbered

end Effect

/-! ### Numberings of events -/

/-- A numbering of events gives every event with a block the position of that block, counted
from 1. -/
def Agrees (number : Event → Nat) (prologue : List PrologueItem) : Prop :=
  ∀ (j : Nat) (b : SharedEvent), (sharedEvents prologue)[j]? = some b →
    ∀ e : Event, e.text = b.event.text → number e = j + 1

/-- A numbering that agrees with a prologue agrees with every earlier one. -/
theorem Agrees.of_persist {number : Event → Nat} {p q : List PrologueItem}
    (h : Agrees number q) (hp : Persist p q) : Agrees number p := by
  intro j b hb e he
  obtain ⟨b', hb', hev, -, -⟩ := hp j b hb
  exact h j b' hb' e (by rw [he, hev])

/-- The numbers that an orderly prologue gives agree with it. -/
theorem agrees_numberIn {prologue : List PrologueItem} (h : Orderly prologue) :
    Agrees (numberIn prologue) prologue :=
  fun _ _ hb _ he => h.numberIn_eq hb he

/-! ### Compilation gives layouts -/

/-- **Compiled scripts are laid out.** A script that is compiled successfully changes the module in
the way described by `Effect`, and it is laid out as the fragment that compilation gives, under
every numbering that agrees with the module afterwards. -/
theorem layout_of_compileAll {index base : Nat} {pending : List Work} {items : List Statement}
    {m m' : Module} {f : Fragment}
    (h : compileAll index base pending items m = .ok f m') :
    ∃ counters, Effect index (signalsOf items) counters m m' ∧
      ∀ number, Agrees number m'.prologue → Layout number base pending items counters f := by
  -- The cases are those of compilation: first the statements one by one, then their lists.
  induction base, pending, items using compileAll.induct
    (fun base pending s => ∀ {m m' : Module} {f : Fragment},
      compile index base pending s m = .ok f m' →
      ∃ counters, Effect index s.signals counters m m' ∧
        ∀ number, Agrees number m'.prologue → Layout number base pending [s] counters f)
    generalizing m m' f with
  | case1 base pending c h =>
      rw [compile] at h
      obtain ⟨rfl, rfl⟩ := pure_ok.mp h
      exact ⟨[], .refl _, fun number _ => .work rfl .nil⟩
  | case2 base pending items ih h =>
      rw [compile] at h
      obtain ⟨cs, heffect, hlayout⟩ := ih h
      refine ⟨cs, heffect, fun number hn => .list ?_⟩
      rw [List.append_nil]
      exact hlayout number hn
  | case3 base pending microseconds h =>
      rw [compile] at h
      obtain ⟨rfl, rfl⟩ := pure_ok.mp h
      exact ⟨[], .refl _, fun number _ => .wait rfl .nil⟩
  | case4 base pending event h =>
      -- The number in the tail is the one that registration gave, which later ones do not change.
      rw [compile] at h
      obtain ⟨n, m₁, hreg, h⟩ := bind_ok.mp h
      obtain ⟨rfl, rfl⟩ := pure_ok.mp h
      refine ⟨[], .of_registerSignal hreg, fun number hn => ?_⟩
      obtain ⟨-, j, b, hb, htext, rfl⟩ := Module.registerSignal_ok hreg
      rw [← hn j b hb event htext.symm]
      exact .wait rfl .nil
  | case5 base pending state label h =>
      rw [compile] at h
      obtain ⟨rfl, rfl⟩ := pure_ok.mp h
      exact ⟨[], .refl _, fun number _ => .work rfl .nil⟩
  | case6 base pending condition yes no ihy ihn h =>
      rw [compile] at h
      obtain ⟨y, m₁, hy, h⟩ := bind_ok.mp h
      obtain ⟨cs, heffect, hlayout⟩ := ihy hy
      split at h
      case isTrue hno =>
          obtain ⟨rfl, rfl⟩ := pure_ok.mp h
          obtain rfl := List.isEmpty_iff.mp hno
          refine ⟨cs, ?_, fun number hn => .conditional (hlayout number hn)⟩
          rwa [Statement.signals_branch, signalsOf_nil, List.append_nil]
      case isFalse hno =>
          obtain ⟨n, m₂, hn, h⟩ := bind_ok.mp h
          obtain ⟨rfl, rfl⟩ := pure_ok.mp h
          obtain ⟨ds, heffect', hlayout'⟩ := ihn y hn
          have hne : no ≠ [] := fun hnil => hno (List.isEmpty_iff.mpr hnil)
          refine ⟨cs ++ ds, ?_, fun number hag => .alternative hne
            (hlayout number (hag.of_persist heffect'.persist)) (hlayout' number hag)⟩
          rw [Statement.signals_branch]
          exact heffect.trans heffect'
  | case7 base pending count body ih h =>
      rw [compile] at h
      obtain ⟨v, m₁, hv, h⟩ := bind_ok.mp h
      obtain ⟨b, m₂, hb, h⟩ := bind_ok.mp h
      obtain ⟨rfl, rfl⟩ := pure_ok.mp h
      obtain ⟨cs, heffect, hlayout⟩ := ih hb
      exact ⟨v.name :: cs, (Effect.of_anonymousVariable hv).trans heffect,
        fun number hn => .rounds (.repeatLoop count body v) (hlayout number hn)⟩
  | case8 base pending condition body ih h =>
      rw [compile] at h
      obtain ⟨b, m₁, hb, h⟩ := bind_ok.mp h
      obtain ⟨rfl, rfl⟩ := pure_ok.mp h
      obtain ⟨cs, heffect, hlayout⟩ := ih hb
      refine ⟨cs, heffect, fun number hn => ?_⟩
      have hloop : Layout number base pending [.block (.whileLoop condition) body] _ _ :=
        .rounds (.whileLoop condition body) (hlayout number hn)
      rwa [List.append_nil] at hloop
  | case9 base pending start condition next body ih h =>
      rw [compile] at h
      obtain ⟨b, m₁, hb, h⟩ := bind_ok.mp h
      obtain ⟨rfl, rfl⟩ := pure_ok.mp h
      obtain ⟨cs, heffect, hlayout⟩ := ih hb
      exact ⟨cs, by rwa [Statement.signals_forLoop],
        fun number hn => .rounds (.forLoop start condition next body) (hlayout number hn)⟩
  -- What has no place in a script is refused, a block under a trusted head only if it holds a case.
  | case10 base pending header body hcase h =>
      rw [compile, if_pos hcase] at h
      exact (fail_ok.mp h).elim
  | case11 base pending header body hcase h =>
      rw [compile, if_neg hcase] at h
      obtain ⟨rfl, rfl⟩ := pure_ok.mp h
      exact ⟨[], .refl _, fun number _ => .work rfl .nil⟩
  | case12 base pending event body hcase h =>
      rw [compile, if_pos hcase] at h
      exact (fail_ok.mp h).elim
  | case13 base pending event body hcase h =>
      rw [compile, if_neg hcase] at h
      exact (fail_ok.mp h).elim
  | case14 base pending scrutinee arms h =>
      rw [compile] at h
      exact (fail_ok.mp h).elim
  | case15 base pending =>
      rw [compileAll] at h
      obtain ⟨rfl, rfl⟩ := pure_ok.mp h
      exact ⟨[], .refl _, fun number _ => .nil⟩
  | case16 base pending s rest ih ihr =>
      rw [compileAll] at h
      obtain ⟨f₁, m₁, hs, h⟩ := bind_ok.mp h
      obtain ⟨g, m₂, hrest, h⟩ := bind_ok.mp h
      obtain ⟨rfl, rfl⟩ := pure_ok.mp h
      obtain ⟨cs, heffect, hlayout⟩ := ih hs
      obtain ⟨ds, heffect', hlayout'⟩ := ihr f₁ hrest
      refine ⟨cs ++ ds, ?_, fun number hag => ?_⟩
      · rw [signalsOf_cons]
        exact heffect.trans heffect'
      -- The rest registers signals too, but it leaves the numbers of the first part as they are.
      exact (hlayout number (hag.of_persist heffect'.persist)).append (hlayout' number hag)

end Sequence

end Stimulus
