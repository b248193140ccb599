import Stimulus.Name
import Stimulus.Options
import Stimulus.Statement.Build

/-!
# Modules

A **module** collects declarations and three lists of analog commands. Everything is kept in the
order in which it was registered.

Modules are put together by **construction steps**. A step that fails may have changed the module
before it did, and it leaves its fault behind: the first fault poisons the module for good, and
whatever later steps do, the module cannot be emitted any more.

## Main definitions

* `Module`, `Module.new?`
* `Build`, the construction steps, and `Build.fail`, the one way for a step to fail
* `Module.net`, `Module.bus`, `Module.electrical`, `Module.parameter`,
  `Module.anonymousVariable`, `Module.namedVariable`: declarations
* `Module.addPrologue`, `Module.addBody`, `Module.addEpilogue`: commands
-/

namespace Stimulus

/-! ### The contents of a module -/

/-- A declared net or bus. -/
structure NetDeclaration where
  name : String
  width : Nat
  direction : Direction
  deriving DecidableEq, Repr

/-- A declared parameter and its default. -/
structure ParameterDeclaration where
  name : String
  default : Value

/-- A declared variable and its initial value. -/
structure VariableDeclaration where
  name : String
  initial : Value

/-- The variables that control the sequence with a given number: the time of its next step, its
state, whether it runs on in this time step, and the number of the event it waits for. -/
structure SequenceControl where
  index : Nat
  deriving DecidableEq, Repr

namespace SequenceControl

/-- The time of the next step. -/
def time (c : SequenceControl) : Variable .real :=
  ⟨"_$evntTime_" ++ toString c.index⟩

/-- The state. -/
def state (c : SequenceControl) : Variable .integer :=
  ⟨"_$state_" ++ toString c.index⟩

/-- Whether the sequence runs on in this time step. -/
def running (c : SequenceControl) : Variable .bool :=
  ⟨"_$runSt_" ++ toString c.index⟩

/-- The number of the event the sequence waits for; 0 stands for its timer. -/
def event (c : SequenceControl) : Variable .integer :=
  ⟨"_$eventId_" ++ toString c.index⟩

/-- Lets the sequence run on if it waits for the event with a given number. -/
def resumeOn (c : SequenceControl) (number : Nat) : Statement :=
  .branch (.comparison .eq rfl c.event.expr (.integer number))
    [.command (c.running.assign (.bool true))] []

end SequenceControl

/-- An event block that all sequences share which wait for the same event. -/
structure SharedEvent where
  event : Event
  /-- The sequences that wait for the event somewhere, in the order in which they were added. -/
  waiters : List Nat
  /-- The statements of the block, to which each sequence has added one. -/
  clauses : List Statement

/-- What stands in the first list of commands. -/
inductive PrologueItem where
  | statement (s : Statement)
  | shared (block : SharedEvent)

/-- A module under construction. -/
structure Module where
  name : String
  options : Options
  /-- The text of the header's stamp. -/
  stamp : String
  names : Namespace
  nets : List NetDeclaration
  parameters : List ParameterDeclaration
  declaredVariables : List VariableDeclaration
  /-- The assignments that give the variables their initial values. -/
  initialisation : List Command
  prologue : List PrologueItem
  body : List Statement
  epilogue : List Statement
  /-- The number of sequences. -/
  sequences : Nat
  /-- The tags of the markers. -/
  markers : List String
  /-- The first fault of a construction step. -/
  fault : Option Fault

/-! ### Construction steps -/

/-- A construction step: it changes a module and gives a result or a fault. The changes made
before a fault stay. -/
abbrev Build := EStateM Fault Module

namespace Build

/-- Fails, and poisons the module unless it is poisoned already. -/
def fail {α : Type} (f : Fault) : Build α := fun m =>
  .error f { m with fault := m.fault.or (some f) }

/-- Goes on with a result, or fails with its fault. -/
def ofExcept {α : Type} : Except Fault α → Build α
  | .ok a => pure a
  | .error f => fail f

end Build

namespace Module

/-- A module without contents. Its name has to be a name; it does not enter the namespace. The
stamp is taken now, at a moment whose text is `present`. -/
def new? (options : Options) (present name : String) : Except Fault Module := do
  Name.check name
  return {
    name, options
    stamp := options.header.resolve present
    names := .empty
    nets := [], parameters := [], declaredVariables := [], initialisation := []
    prologue := [], body := [], epilogue := []
    sequences := 0
    markers := []
    fault := none }

/-- The nets that are ports. -/
def ports (m : Module) : List NetDeclaration :=
  m.nets.filter (·.direction.isPort)

/-! ### Declarations -/

/-- Claims a name. -/
def claim (name : String) : Build Unit := do
  let names ← Build.ofExcept ((← get).names.claim name)
  modify fun m => { m with names }

/-- Declares a net of any positive width. -/
def declareNet (name : String) (width : Nat) (direction : Direction) : Build Unit := do
  if width = 0 then Build.fail (.outOfRange (.netWidth name))
  else
    claim name
    modify fun m => { m with nets := m.nets ++ [⟨name, width, direction⟩] }

/-- Declares a scalar net. -/
def net (name : String) (direction : Direction) : Build Net := do
  declareNet name 1 direction
  return .scalar name

/-- Declares a bus, which may be of width 1. -/
def bus (name : String) (width : Nat) (direction : Direction) : Build Bus := do
  declareNet name width direction
  return ⟨name, width⟩

/-- Declares a scalar net if the width is 1, else a bus. -/
def electrical (name : String) (width : Nat) (direction : Direction) : Build Nets := do
  declareNet name width direction
  return if width = 1 then .scalar (.scalar name) else .bus ⟨name, width⟩

/-- Declares a parameter. The result stands for its value. -/
def parameter {k : Kind} (name : String) (default : Expr k) : Build (Expr k) := do
  claim name
  modify fun m => { m with parameters := m.parameters ++ [⟨name, ⟨k, default⟩⟩] }
  return .ident name

/-- Enters a variable whose name is claimed, and the assignment of its initial value. -/
def declareVariable {k : Kind} (name : String) (initial : Expr k) : Build (Variable k) := do
  modify fun m => { m with
    declaredVariables := m.declaredVariables ++ [⟨name, ⟨k, initial⟩⟩]
    initialisation := m.initialisation ++ [.assign name ⟨k, initial⟩] }
  return ⟨name⟩

/-- Declares a variable with the next anonymous name. -/
def anonymousVariable {k : Kind} (initial : Expr k) : Build (Variable k) := do
  let (name, names) := (← get).names.fresh
  modify fun m => { m with names }
  declareVariable name initial

/-- Declares a variable with a name of its own. -/
def namedVariable {k : Kind} (name : String) (initial : Expr k) : Build (Variable k) := do
  claim name
  declareVariable name initial

/-! ### Commands -/

/-- Refuses script steps in a section. -/
def checkSection (part : Section) (s : Statement) : Build Unit :=
  if s.hasScriptStep then Build.fail (.misplaced (.scriptStepInSection part)) else pure ()

/-- Adds a statement to the prologue, which runs first. -/
def addPrologue (s : Statement) : Build Unit := do
  checkSection .prologue s
  modify fun m => { m with prologue := m.prologue ++ [.statement s] }

/-- Adds a statement to the body. -/
def addBody (s : Statement) : Build Unit := do
  checkSection .body s
  modify fun m => { m with body := m.body ++ [s] }

/-- Adds a statement to the epilogue, which runs last. -/
def addEpilogue (s : Statement) : Build Unit := do
  checkSection .epilogue s
  modify fun m => { m with epilogue := m.epilogue ++ [s] }

end Module

end Stimulus
