import Mathlib.Data.Nat.Init
import Stimulus.Proofs.Run.Machine
import Stimulus.Proofs.Run.Meaning
import Stimulus.Proofs.Sequence.Hosted

/-!
# Running generated code

The drivers of a module and the statements that run its sequences, executed as what they are:
statements of the modelling language. When something happens, be it a timer that expires or an
event, the block that belongs to it is run, and then every sequence has its turn, in order. After
its turn it is looked up for what the sequence waits.

Loops, conditionals and cases are taken apart one level at a time (`Meaning.expand`), and what
remains is performed. Every statement that is performed is logged, also those that only keep the
books of the sequencer.

## Main definitions

* `Cause`, `Firing`, `Happening`
* `Code`, `Code.step`: drivers and bodies as a machine
* `Module.code`: the code of a module and the sequences it hosts
-/

namespace Stimulus

/-! ### What happens and what is logged -/

/-- What makes the simulator run the statements of a module. -/
inductive Cause where
  /-- The timer of a sequence expires. -/
  | timer (index : Nat)
  /-- The event with a given text happens. -/
  | signal (text : String)
  deriving DecidableEq

/-- Something happens. Since the last time, the surroundings have changed the store. -/
structure Firing (R : Type) where
  cause : Cause
  change : Store R → Store R

/-- What is logged: a sequence performs a statement, or it comes to rest. Then it waits for its
timer or for the event with a given text, and its timer is set to some time. -/
inductive Happening (R : Type) where
  | performed (index : Nat) (s : Statement)
  | rested (index : Nat) (awaits : Option String) (due : Datum R)

/-- Whether an entry of a log is more than the sequencer keeping its books. -/
def Happening.isOutward {R : Type} (owned : List String) : Happening R → Bool
  | .performed _ s => s.target?.all fun x => !owned.contains x
  | .rested .. => true

/-! ### Statements taken apart -/

namespace Meaning

variable {R : Type} (M : Meaning R)

/-- The arm of a case that is run: the first whose label fits, else the one without a label. -/
def chosen (v : Value) (arms : List Arm) (st : Store R) : List Statement :=
  match arms.find? fun a => a.label.any fun label => M.fits label v st with
  | some a => a.body
  | none => ((arms.find? fun a => a.label.isNone).map (·.body)).getD []

/-- The statements to be run in place of a statement that governs others. A plain statement is to
be performed as it is. -/
def expand (st : Store R) : Statement → Option (List Statement)
  | .command _ => none
  | .block (.raw _) _ => none
  | .list items => some items
  | .branch c yes no => some (if M.bool c st then yes else no)
  | .select v arms => some (M.chosen v arms st)
  | .block (.whileLoop c) body =>
    some (if M.bool c st then body ++ [.block (.whileLoop c) body] else [])
  | .block (.forLoop start c next) body =>
    some [.command start, .block (.whileLoop c) (body ++ [.command next])]
  | .block (.repeatLoop n) body => some (List.replicate (M.integer n st).toNat body).flatten
  | .block (.onEvent _) _ => some []
  | .step (.mark state _) => some [.command state.toggle]
  | .step _ => some []

end Meaning

/-! ### The machine -/

/-- Drivers and bodies. -/
structure Code where
  /-- The statements that run first when something happens. -/
  respond : Cause → List Statement
  /-- The statements of the sequences, in order. -/
  turns : List (SequenceControl × Statement)
  /-- The text of the event with a given number; there is none for the timer. -/
  awaited : Int → Option String

namespace Code

/-- What is left to do. -/
inductive Item where
  | run (index : Nat) (s : Statement)
  /-- The turn of a sequence ends. -/
  | rest (control : SequenceControl)

/-- A state of the machine: the store, what is left to do, and what is yet to happen. -/
structure Config (R : Type) where
  store : Store R
  stack : List Item
  firings : List (Firing R)

variable {R : Type} (M : Meaning R) (p : Code)

/-- All that is run when something happens. The block that belongs to it is no sequence's. -/
def reaction (cause : Cause) : List Item :=
  (p.respond cause).map (.run 0) ++
    p.turns.flatMap fun (control, s) => [.run control.index s, .rest control]

/-- For what a sequence waits, by the number that its variable holds. -/
def awaits (control : SequenceControl) (st : Store R) : Option String :=
  match st control.event.name with
  | .integer n => p.awaited n
  | .real _ => none

/-- The steps of the machine. Once the simulation has ended, nothing happens any more. -/
def step : Machine (Config R) (Happening R)
  | ⟨_, [], []⟩ => none
  | ⟨st, [], f :: firings⟩ => some ([], ⟨f.change st, p.reaction f.cause, firings⟩)
  | ⟨st, .rest control :: stack, firings⟩ =>
    some ([.rested control.index (p.awaits control st) (st control.time.name)],
      ⟨st, stack, firings⟩)
  | ⟨st, .run index s :: stack, firings⟩ =>
    match M.expand st s with
    | some items => some ([], ⟨st, items.map (.run index) ++ stack, firings⟩)
    | none =>
      match M.perform s st with
      | some st' => some ([.performed index s], ⟨st', stack, firings⟩)
      | none => some ([.performed index s], ⟨st, [], []⟩)

variable {M p} {st st' : Store R} {index : Nat} {s : Statement} {stack : List Item}
  {firings : List (Firing R)}

/-- A statement that governs others is taken apart in a step. -/
theorem step_expand {items : List Statement} (h : M.expand st s = some items) :
    step M p ⟨st, .run index s :: stack, firings⟩
      = some ([], ⟨st, items.map (.run index) ++ stack, firings⟩) := by
  simp only [step, h]

/-- A plain statement is performed in a step. -/
theorem step_perform (h : M.expand st s = none) (hp : M.perform s st = some st') :
    step M p ⟨st, .run index s :: stack, firings⟩
      = some ([.performed index s], ⟨st', stack, firings⟩) := by
  simp only [step, h, hp]

/-- A plain statement that ends the simulation leaves nothing to do. -/
theorem step_end (h : M.expand st s = none) (hp : M.perform s st = none) :
    step M p ⟨st, .run index s :: stack, firings⟩
      = some ([.performed index s], ⟨st, [], []⟩) := by
  simp only [step, h, hp]

end Code

/-! ### The code of a module -/

/-- Whether a statement of the prologue drives a sequence: it is the block of a timer that is set to
the time of the sequence, and all it does is to let the sequence run on if that waits for its
timer. -/
def Statement.drives (c : SequenceControl) : Statement → Bool
  | .block (.onEvent (.timer (.ident time) _))
      [.branch (.compare .eq _ (.ident event) (.integer 0))
        [.command (.assign running ⟨_, .bool true⟩)] []] =>
    time == c.time.name && event == c.event.name && running == c.running.name
  | _ => false

/-- A statement that drives a sequence, written out. -/
theorem Statement.drives_iff {c : SequenceControl} {s : Statement} :
    s.drives c = true ↔
      ∃ schedule, s = .block (.onEvent (.timer c.time.expr schedule)) [c.resumeOn 0] := by
  constructor
  · intro h
    unfold drives at h
    split at h
    · obtain ⟨h, hrunning⟩ := Bool.and_eq_true_iff.mp h
      obtain ⟨htime, hevent⟩ := Bool.and_eq_true_iff.mp h
      obtain rfl := eq_of_beq htime
      obtain rfl := eq_of_beq hevent
      obtain rfl := eq_of_beq hrunning
      exact ⟨_, rfl⟩
    · cases h
  · rintro ⟨schedule, rfl⟩
    change (c.time.name == c.time.name && c.event.name == c.event.name
      && c.running.name == c.running.name) = true
    simp only [beq_self_eq_true, Bool.and_self]

/-- What the prologue does when the timer of a sequence expires: what stands in the block that
drives the sequence. -/
def Module.timed (m : Module) (c : SequenceControl) : List Statement :=
  match (prologueStatements m.prologue).find? (·.drives c) with
  | some (.block _ body) => body
  | _ => []

/-- The code of a module for the sequences it hosts. A timer runs the block that drives its
sequence; an event runs the shared blocks with its text. Both are taken from the prologue. -/
def Module.code (m : Module) (cs : List Compiled) : Code where
  respond
    | .timer index => (cs.filter (·.control.index = index)).flatMap fun c => m.timed c.control
    | .signal text =>
      ((sharedEvents m.prologue).filter (·.event.text = text)).flatMap (·.clauses)
  turns := cs.map fun c => (c.control, c.runner)
  awaited
    | .ofNat (n + 1) => (sharedEvents m.prologue)[n]?.map (·.event.text)
    | _ => none

/-- A prologue with the driver of a sequence lets the sequence run on when its timer expires. -/
theorem Module.timed_eq {m : Module} {c : SequenceControl} {tolerance : Option Float}
    (h : c.driver tolerance ∈ prologueStatements m.prologue) : m.timed c = [c.resumeOn 0] := by
  have hdrives : (c.driver tolerance).drives c = true := by
    cases tolerance <;> exact Statement.drives_iff.mpr ⟨_, rfl⟩
  -- Whichever block is found first, it is one that drives the sequence.
  obtain ⟨s, hs⟩ := Option.isSome_iff_exists.mp (List.find?_isSome.mpr ⟨_, h, hdrives⟩)
  obtain ⟨schedule, rfl⟩ := Statement.drives_iff.mp (List.find?_some hs)
  rw [timed, hs]

/-- The store in which a simulation starts: every variable has its initial value. -/
def Meaning.initial {R : Type} (M : Meaning R) (m : Module) (st : Store R) : Store R :=
  m.initialisation.foldl (fun st c => (M.perform (.command c) st).getD st) st

end Stimulus
