import Stimulus.Bench.Library
import Stimulus.Options.Decode
import Stimulus.Tool.Arguments
import Stimulus.Tool.Host
import Stimulus.Tool.Json

/-!
# A run of the tool

A run lists the bundled benches, or builds some of them and writes their files. It stops at the
first failure; files that were written before it stay.

## Main definitions

* `Failure`, with its message and its exit code
* `Summary`, what a report says about a bench
* `run`, from the command line to the text that is printed
-/

namespace Stimulus.Tool

/-! ### Failures -/

/-- Why a run stops. -/
inductive Failure where
  | usage (error : UsageError)
  | unreadableOptions (path : String)
  | malformedOptions (path : String)
  | unknownBench (name : String)
  | fault (fault : Fault)
  | unwritable (path : String)
  deriving DecidableEq, Repr

namespace Failure

/-- The text of a failure. -/
def message : Failure → String
  | .usage error => error.message
  | .unreadableOptions path => "Failed to read options file `" ++ path ++ "`"
  | .malformedOptions path => "Failed to parse options in `" ++ path ++ "`"
  | .unknownBench name =>
    "Unknown bench `" ++ name ++ "` (expected one of: "
      ++ String.intercalate ", " (Bench.bundled.map (·.name)) ++ ")"
  | .fault f => f.message
  | .unwritable path => "Failed to write `" ++ path ++ "`"

/-- The exit code of a run that stops. -/
def exitCode : Failure → Nat
  | .usage _ => 2
  | _ => 1

end Failure

/-- A step of a run over a host: it may stop the run. -/
abbrev Job (m : Type → Type) (α : Type) := ExceptT Failure m α

/-- Goes on with a value if there is one, and else stops the run. -/
def require {m : Type → Type} [Monad m] {α : Type} (failure : Failure) : Option α → Job m α
  | some a => return a
  | none => throw failure

/-! ### Options -/

/-- The options file that is used if it is there and no other one is named. -/
def defaultConfig : String :=
  "vaforge.toml"

/-- The options in a file. -/
def readOptions {m : Type → Type} [Monad m] (host : Host m) (path : String) : Job m Options := do
  let text ← require (.unreadableOptions path) (← host.read? path)
  require (.malformedOptions path) (Options.parse? text)

/-- The options of a run. -/
def loadOptions {m : Type → Type} [Monad m] (host : Host m) (settings : Settings) :
    Job m Options := do
  match settings.config with
  | some path => readOptions host path
  | none =>
    if ← host.exists? defaultConfig then
      if settings.verbose then
        host.note ("[DEBUG] Using " ++ defaultConfig ++ " from the working directory")
      readOptions host defaultConfig
    else return .standard

/-! ### Listing -/

/-- Fills a text up with spaces to a width. -/
def padRight (width : Nat) (text : String) : String :=
  text ++ String.ofList (List.replicate (width - text.length) ' ')

/-- The line of a bench in the list of benches. -/
def listLine (b : Bench) : String :=
  padRight 14 b.name ++ " " ++ b.description ++ "\n"

/-! ### Building -/

/-- What a report says about a bench. -/
structure Summary where
  bench : String
  module : String
  ports : List NetDeclaration
  /-- The number of sequences. -/
  sequences : Nat
  /-- The tags of the markers. -/
  markers : List String
  /-- The paths of the files. -/
  files : List String

/-- A port in a report. -/
def portReport (n : NetDeclaration) : Json :=
  .object [("name", .text n.name), ("direction", .text n.direction.title),
    ("width", .number n.width)]

/-- A bench in a report. -/
def Summary.report (s : Summary) : Json :=
  .object [("bench", .text s.bench), ("module", .text s.module),
    ("ports", .list (s.ports.map portReport)), ("sequences", .number s.sequences),
    ("markers", .list (s.markers.map .text)), ("files", .list (s.files.map .text))]

/-- The path of a file in a directory. -/
def joinPath (directory name : String) : String :=
  if directory.endsWith "/" then directory ++ name else directory ++ "/" ++ name

/-- Builds a bench and writes its files. -/
def buildBench {m : Type → Type} [Monad m] (host : Host m) (settings : Settings)
    (options : Options) (outDir name : String) : Job m Summary := do
  let bench ← require (.unknownBench name) (Bench.find? name)
  if settings.verbose then host.note ("[DEBUG] Building bench `" ++ name ++ "`")
  let present ← host.now
  let generated ← ExceptT.mk (pure ((bench.build options present).mapError .fault))
  let files ← ExceptT.mk (pure (generated.files?.mapError .fault))
  let files := files.map fun (name, content) => (joinPath outDir name, content)
  unless ← host.makeDirectory outDir do throw (.unwritable outDir)
  for (path, content) in files do
    unless ← host.write path content do throw (.unwritable path)
  unless settings.quiet do
    for (path, _) in files do host.note ("[INFO ] Wrote " ++ path)
  return ⟨name, generated.module.name, generated.module.ports, generated.module.sequences,
    generated.module.markers, files.map (·.1)⟩

/-- Does what a command line asks for and gives the text to print. -/
def run {m : Type → Type} [Monad m] (host : Host m) (arguments : List String) :
    Job m String := do
  let request ← ExceptT.mk (pure ((Request.parse? arguments).mapError .usage))
  let options ← loadOptions host request.settings
  match request.command with
  | .list => return String.join (Bench.bundled.map listLine)
  | .build benches outDir json => do
    let summaries ← benches.mapM (buildBench host request.settings options outDir)
    unless request.settings.quiet do
      host.note ("[INFO ] Done: " ++ toString summaries.length ++ " module(s) written to "
        ++ outDir)
    return if json then Json.pretty 0 (.list (summaries.map (·.report))) ++ "\n" else ""

end Stimulus.Tool
