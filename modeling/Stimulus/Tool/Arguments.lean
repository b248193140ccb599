/-!
# Command lines

A command line names a command, `list` or `build`, and its options. Options that settle how a run
goes about its work may stand before the command or after it; the others belong to `build`.

## Main definitions

* `Request`, what a command line asks for, and `Request.parse?`
* `UsageError`, why a command line cannot be understood
-/

namespace Stimulus.Tool

/-! ### Options -/

/-- The options of a command line. -/
inductive Switch where
  /-- Tell more about the progress. -/
  | verbose
  /-- Tell of warnings and errors only. -/
  | quiet
  /-- The file that holds the options of modules. -/
  | config
  /-- The directory for the files that are written. -/
  | outDir
  /-- Print a report. -/
  | json
  deriving DecidableEq, Repr

namespace Switch

/-- How a switch is spelled, after two dashes. -/
def spelling : Switch → String
  | .verbose => "verbose"
  | .quiet => "quiet"
  | .config => "config"
  | .outDir => "out-dir"
  | .json => "json"

/-- Whether a switch is followed by a path. -/
def takesPath : Switch → Bool
  | .config | .outDir => true
  | .verbose | .quiet | .json => false

/-- The switches that may stand before the command and after it. -/
def shared : List Switch :=
  [.verbose, .quiet, .config]

end Switch

/-- Why a command line cannot be understood. -/
inductive UsageError where
  | unknownSwitch (argument : String)
  | repeatedSwitch (switch : Switch)
  | missingPath (switch : Switch)
  /-- A path is given to a switch that takes none. -/
  | unwantedPath (switch : Switch)
  | verboseAndQuiet
  | missingCommand
  | unknownCommand (argument : String)
  | unwantedOperand (argument : String)
  | missingBench
  deriving DecidableEq, Repr

/-- The text of a usage error. -/
def UsageError.message : UsageError → String
  | .unknownSwitch argument => "unexpected argument '" ++ argument ++ "' found"
  | .repeatedSwitch s => "the argument '--" ++ s.spelling ++ "' cannot be used multiple times"
  | .missingPath s => "a value is required for '--" ++ s.spelling ++ "' but none was supplied"
  | .unwantedPath s => "unexpected value for '--" ++ s.spelling ++ "' found; no more were expected"
  | .verboseAndQuiet => "the argument '--quiet' cannot be used with '--verbose'"
  | .missingCommand => "a command is required: list or build"
  | .unknownCommand argument => "unrecognized command '" ++ argument ++ "'"
  | .unwantedOperand argument => "unexpected argument '" ++ argument ++ "' found"
  | .missingBench => "at least one bench is required"

/-! ### Arguments -/

/-- What a single argument is. -/
inductive Argument where
  /-- A switch, perhaps with a path after an equals sign. -/
  | switch (switch : Switch) (path : Option String)
  /-- Two dashes: all further arguments are operands. -/
  | separator
  | operand (text : String)
  deriving DecidableEq, Repr

/-- Splits a text at its first equals sign. -/
def splitAtEquals (text : List Char) : String × Option String :=
  match text.dropWhile (· ≠ '=') with
  | [] => (String.ofList text, none)
  | _ :: rest => (String.ofList (text.takeWhile (· ≠ '=')), some (String.ofList rest))

/-- Tells what an argument is, where some switches are known. A lone dash is an operand. -/
def Argument.read? (known : List Switch) (argument : String) : Except UsageError Argument :=
  match argument.toList with
  | ['-', '-'] => .ok .separator
  | ['-'] => .ok (.operand argument)
  | '-' :: '-' :: rest =>
    let (name, path) := splitAtEquals rest
    match known.find? (·.spelling == name) with
    | some s => .ok (.switch s path)
    | none => .error (.unknownSwitch argument)
  | '-' :: _ => .error (.unknownSwitch argument)
  | _ => .ok (.operand argument)

/-- Whether an argument can follow a switch as its path: it is not empty and does not look like a
switch. -/
def isPath (argument : String) : Bool :=
  match argument.toList with
  | [] => false
  | ['-'] => true
  | c :: _ => c ≠ '-'

/-- The switches of one part of a command line, with their paths, and its operands. -/
structure Arguments where
  switches : List (Switch × String)
  operands : List String
  deriving DecidableEq, Repr

namespace Arguments

/-- No arguments. -/
def empty : Arguments :=
  ⟨[], []⟩

/-- Whether a switch is given. -/
def has (a : Arguments) (s : Switch) : Bool :=
  (a.switches.lookup s).isSome

/-- Adds a switch, which may be given once only. -/
def add? (a : Arguments) (s : Switch) (path : String) : Except UsageError Arguments :=
  if a.has s then .error (.repeatedSwitch s)
  else .ok { a with switches := (s, path) :: a.switches }

/-- Reads the arguments of one part of a command line, which `known` switches belong to. If the
part is to be followed by a command, it ends before the first operand, and the arguments from
there on are left. -/
def read? (known : List Switch) (beforeCommand : Bool) (a : Arguments) :
    List String → Except UsageError (Arguments × List String)
  | [] => .ok (a, [])
  | argument :: rest => do
    match ← Argument.read? known argument with
    | .separator =>
      if beforeCommand then .error .missingCommand
      else .ok ({ a with operands := a.operands ++ rest }, [])
    | .operand text =>
      if beforeCommand then .ok (a, argument :: rest)
      else read? known beforeCommand { a with operands := a.operands ++ [text] } rest
    | .switch s path =>
      match s.takesPath, path with
      | false, none => read? known beforeCommand (← a.add? s "") rest
      | false, some _ => .error (.unwantedPath s)
      | true, some path =>
        if path.isEmpty then .error (.missingPath s)
        else read? known beforeCommand (← a.add? s path) rest
      | true, none =>
        match rest with
        | [] => .error (.missingPath s)
        | path :: rest =>
          if isPath path then read? known beforeCommand (← a.add? s path) rest
          else .error (.missingPath s)

end Arguments

/-! ### Requests -/

/-- How a run goes about its work. -/
structure Settings where
  verbose : Bool
  quiet : Bool
  config : Option String
  deriving DecidableEq, Repr

namespace Settings

/-- The settings in one part of a command line. -/
def read? (a : Arguments) : Except UsageError Settings :=
  if a.has .verbose && a.has .quiet then .error .verboseAndQuiet
  else .ok ⟨a.has .verbose, a.has .quiet, a.switches.lookup .config⟩

/-- Joins the settings before a command and those after it, which win. -/
def join (before after : Settings) : Settings :=
  ⟨before.verbose || after.verbose, before.quiet || after.quiet, after.config <|> before.config⟩

end Settings

/-- What a run is to do. -/
inductive Command where
  /-- List the bundled benches. -/
  | list
  /-- Build benches, write their files and, if `json`, print a report. -/
  | build (benches : List String) (outDir : String) (json : Bool)
  deriving DecidableEq, Repr

/-- What a command line asks for. -/
structure Request where
  settings : Settings
  command : Command
  deriving DecidableEq, Repr

namespace Request

/-- The directory for the files that are written, if no other one is named. -/
def defaultOutDir : String :=
  "generated"

/-- Reads the part of a command line after the command. -/
def readCommand? (name : String) (arguments : List String) :
    Except UsageError (Settings × Command) := do
  match name with
  | "list" => do
    let (a, _) ← Arguments.empty.read? Switch.shared false arguments
    match a.operands with
    | [] => return (← Settings.read? a, .list)
    | operand :: _ => .error (.unwantedOperand operand)
  | "build" => do
    let (a, _) ← Arguments.empty.read? (Switch.shared ++ [.outDir, .json]) false arguments
    if a.operands.isEmpty then .error .missingBench
    else
      let outDir := (a.switches.lookup .outDir).getD defaultOutDir
      return (← Settings.read? a, .build a.operands outDir (a.has .json))
  | _ => .error (.unknownCommand name)

/-- Reads a command line. -/
def parse? (arguments : List String) : Except UsageError Request := do
  let (a, rest) ← Arguments.empty.read? Switch.shared true arguments
  let before ← Settings.read? a
  match rest with
  | [] => .error .missingCommand
  | name :: rest =>
    let (after, command) ← readCommand? name rest
    return ⟨before.join after, command⟩

end Request

end Stimulus.Tool
