import Std.Time.Format
import Stimulus.Tool.Run

/-!
# The command line

Runs the tool on the files of the system: prints what it has to print, complains on the error
stream, and ends with the exit code of the run.
-/

namespace Stimulus.Tool

/-- Whether an action ends without an error. -/
def succeeds (action : IO Unit) : IO Bool := do
  match ← action.toBaseIO with
  | .ok _ => return true
  | .error _ => return false

/-- Whether a file or a directory stands at a path: either can be opened for reading. -/
def pathExists (path : String) : IO Bool := do
  match ← (IO.FS.Handle.mk path .read).toBaseIO with
  | .error (.noFileOrDirectory ..) => return false
  | _ => return true

/-- The content of a file that holds text. -/
def fileContent? (path : String) : IO (Option String) := do
  match ← (IO.FS.readFile path).toBaseIO with
  | .ok content => return some content
  | .error _ => return none

/-- The present time, as headers state it. -/
def presentTime : IO String := do
  return (← Std.Time.PlainDateTime.now).format "uuuu-MM-dd HH:mm:ss"

/-- The files, the clock and the error stream of the system. -/
def systemHost : Host IO where
  exists? := pathExists
  read? := fileContent?
  makeDirectory path := succeeds (IO.FS.createDirAll path)
  write path content := succeeds (IO.FS.writeFile path content)
  now := presentTime
  note := IO.eprintln

end Stimulus.Tool

/-- Runs the tool. -/
def main (arguments : List String) : IO UInt32 := do
  match ← Stimulus.Tool.run Stimulus.Tool.systemHost arguments with
  | .ok text =>
    IO.print text
    return 0
  | .error failure =>
    IO.eprintln ("error: " ++ failure.message)
    return failure.exitCode.toUInt32
