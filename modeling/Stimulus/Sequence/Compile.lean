import Stimulus.Sequence.Flow

/-!
# From scripts to flows

A script is a list of statements with script steps in it. It is taken apart into a flow: waits end
a state, loops and conditionals get states of their own, and everything else is work of the state
that is open.

A script that is compiled while state `base` is open yields a **fragment**: the states it closes,
in order and starting with `base`, and the work that is pending for the state that is open then.
That state is always the one after the last closed state, so a fragment needs no numbers for its
states.

## Main definitions

* `Sequence.Fragment`, `Sequence.Fragment.finish`
* `Sequence.compile`, `Sequence.compileAll`
* `Module.registerSignal`, the number of an event that sequences wait for
* `Module.sequence`, a script compiled into a module
-/

namespace Stimulus

/-! ### Shared events -/

/-- The shared event blocks of a prologue. -/
def sharedEvents (prologue : List PrologueItem) : List SharedEvent :=
  prologue.filterMap fun
    | .shared b => some b
    | .statement _ => none

/-- The block that the first sequence to wait for an event makes. -/
def SharedEvent.first (index : Nat) (event : Event) (number : Nat) : SharedEvent :=
  ⟨event, [index], [SequenceControl.resumeOn ⟨index⟩ number]⟩

/-- Adds a sequence to a shared event block with a given number, unless it is there already. -/
def SharedEvent.join (index number : Nat) (b : SharedEvent) : SharedEvent :=
  if b.waiters.contains index then b
  else
    { b with
      waiters := b.waiters ++ [index]
      clauses := b.clauses ++ [SequenceControl.resumeOn ⟨index⟩ number] }

/-- Looks for the block of an event, counting shared blocks from `number` on, and adds a sequence
to it. If there is none, a block is added at the end. Events with the same text share one block.
The result is the number of the block and the items afterwards. -/
def enterSignal (index : Nat) (event : Event) (number : Nat) :
    List PrologueItem → Nat × List PrologueItem
  | [] => (number, [.shared (.first index event number)])
  | .statement s :: rest =>
    let (found, rest) := enterSignal index event number rest
    (found, .statement s :: rest)
  | .shared b :: rest =>
    if b.event.text = event.text then (number, .shared (b.join index number) :: rest)
    else
      let (found, rest) := enterSignal index event (number + 1) rest
      (found, .shared b :: rest)

/-- The number of an event for which a sequence waits. -/
def Module.registerSignal (index : Nat) (event : Event) : Build Nat := do
  let (number, prologue) := enterSignal index event 1 (← get).prologue
  modify fun m => { m with prologue }
  return number

namespace Sequence

/-! ### Fragments -/

/-- The states that a part of a script closes, and the work that is pending afterwards. -/
structure Fragment where
  closed : List State
  pending : List Work

/-- More work for the open state. -/
def Fragment.working (pending : List Work) (more : Work) : Fragment :=
  ⟨[], pending ++ [more]⟩

/-- Closes the open state. -/
def Fragment.closing (pending : List Work) (tail : Tail) : Fragment :=
  ⟨[⟨pending, tail⟩], []⟩

/-- A loop. The open state leads to the test, which leads into the body or past the loop; the last
state of the body does the step and leads back to the test. -/
def Fragment.loop (base : Nat) (pending : List Work) (condition : Expr .bool) (body : Fragment)
    (next : List Work) : Fragment :=
  let test := base + 1
  let entry := base + 2
  let exit := entry + body.closed.length + 1
  ⟨⟨pending, .jump test⟩ :: ⟨[], .branch condition entry exit⟩ :: body.closed
      ++ [⟨body.pending ++ next, .jump test⟩], []⟩

/-- A conditional without an alternative. The open state leads into the branch or past it. -/
def Fragment.when (base : Nat) (pending : List Work) (condition : Expr .bool) (yes : Fragment) :
    Fragment :=
  let join := base + 1 + yes.closed.length + 1
  ⟨⟨pending, .branch condition (base + 1) join⟩ :: yes.closed ++ [⟨yes.pending, .jump join⟩], []⟩

/-- A conditional with an alternative. The open state leads into either branch, and both branches
meet in the state after them. -/
def Fragment.either (base : Nat) (pending : List Work) (condition : Expr .bool)
    (yes no : Fragment) : Fragment :=
  let other := base + 1 + yes.closed.length + 1
  let join := other + no.closed.length + 1
  ⟨⟨pending, .branch condition (base + 1) other⟩ :: yes.closed ++ ⟨yes.pending, .jump join⟩ ::
      no.closed ++ [⟨no.pending, .jump join⟩], []⟩

/-- The flow of a whole script, which ends by finishing the simulation. Pending work gets a state
of its own. -/
def Fragment.finish (f : Fragment) : Flow :=
  if f.pending.isEmpty then f.closed ++ [⟨[], .finish⟩]
  else f.closed ++ [⟨f.pending, .jump (f.closed.length + 1)⟩, ⟨[], .finish⟩]

/-- The state that finishes the simulation: the open one if no work is pending for it, else a new
one. -/
def Fragment.last (f : Fragment) : Nat :=
  if f.pending.isEmpty then f.closed.length else f.closed.length + 1

/-! ### Compilation -/

/-- A delay in seconds, given in microseconds. The delay of a literal is a literal. -/
def seconds (microseconds : Expr .real) : Expr .real :=
  match microseconds.number? with
  | some x => .real (1e-6 * x)
  | none => Expr.mul (.real 1e-6) microseconds

mutual

/-- Compiles a statement of the script of sequence `index` while state `base` is open and has
`pending` work. Cases and event blocks have no place in a script. -/
def compile (index base : Nat) (pending : List Work) : Statement → Build Fragment
  | .command c => return .working pending (.placed (.command c))
  | .list items => compileAll index base pending items
  | .step (.delay microseconds) =>
    return .closing pending (.delay (seconds microseconds) (base + 1))
  | .step (.signal event) => do
    let number ← Module.registerSignal index event
    return .closing pending (.signal number (base + 1))
  | .step (.mark state _) => return .working pending (.placed (.command state.toggle))
  | .branch condition yes no => do
    let y ← compileAll index (base + 1) [] yes
    if no.isEmpty then return .when base pending condition y
    else
      let n ← compileAll index (base + 1 + y.closed.length + 1) [] no
      return .either base pending condition y n
  | .block (.repeatLoop count) body => do
    let counter ← Module.anonymousVariable (.integer 0)
    let condition := Expr.comparison .lt rfl counter.expr count
    let b ← compileAll index (base + 2) [] body
    return .loop base (pending ++ [.counting (counter.assign (.integer 0))]) condition b
      [.counting counter.increment]
  | .block (.whileLoop condition) body => do
    let b ← compileAll index (base + 2) [] body
    return .loop base pending condition b []
  | .block (.forLoop start condition next) body => do
    let b ← compileAll index (base + 2) [] body
    return .loop base (pending ++ [.placed (.command start)]) condition b
      [.placed (.command next)]
  | .block (.raw header) body =>
    if anyNodeOf Statement.isCase body then Build.fail (.misplaced .caseInSequence)
    else return .working pending (.placed (.block (.raw header) body))
  | .block (.onEvent _) body =>
    if anyNodeOf Statement.isCase body then Build.fail (.misplaced .caseInSequence)
    else Build.fail (.misplaced .eventInSequence)
  | .select _ _ => Build.fail (.misplaced .caseInSequence)

/-- Compiles statements one after the other. -/
def compileAll (index base : Nat) (pending : List Work) : List Statement → Build Fragment
  | [] => return ⟨[], pending⟩
  | s :: rest => do
    let f ← compile index base pending s
    let g ← compileAll index (base + f.closed.length) f.pending rest
    return ⟨f.closed ++ g.closed, g.pending⟩

end

end Sequence

/-! ### Sequences in modules -/

/-- A sequence that has been compiled into a module. -/
structure CompiledSequence where
  control : SequenceControl
  /-- The number of its states. -/
  states : Nat
  /-- The state that finishes the simulation. -/
  finish : Nat
  deriving DecidableEq, Repr

/-- The event that resumes a sequence which waits for its timer. A tolerance needs a period beside
it, and a period of zero stands for none. -/
def SequenceControl.timer (c : SequenceControl) (tolerance : Option Float) : Event :=
  match tolerance with
  | none => .after c.time.expr
  | some x => .timer c.time.expr (.every (.real 0.0) (some (.real x)))

/-- Declares the variables that control a sequence. -/
def SequenceControl.declare (c : SequenceControl) : Build Unit := do
  let _ ← Module.namedVariable c.time.name (.real 0.0)
  let _ ← Module.namedVariable c.state.name (.integer 0)
  let _ ← Module.namedVariable c.running.name (.bool false)
  let _ ← Module.namedVariable c.event.name (.integer 0)

/-- Compiles a script into the module. It starts at time 0, makes progress while `guard` holds and
ends by finishing the simulation. -/
def Module.sequence (guard : Expr .bool) (items : List Statement) : Build CompiledSequence := do
  let control : SequenceControl := ⟨(← get).sequences + 1⟩
  control.declare
  modify fun m => { m with sequences := control.index }
  let driver : Statement :=
    .block (.onEvent (control.timer (← get).options.timerTolerance)) [control.resumeOn 0]
  modify fun m => { m with prologue := m.prologue ++ [.statement driver] }
  let fragment ← Sequence.compileAll control.index 0 [] items
  let flow := fragment.finish
  let stopRunning := Statement.command (control.running.assign (.bool false))
  let loop ← Build.ofExcept
    (Statement.while? control.running.expr [stopRunning, (flow.case control).statement])
  let guarded ← Build.ofExcept (Conditional.new? guard [loop])
  Module.addBody guarded.statement
  return ⟨control, flow.length, fragment.last⟩

end Stimulus
