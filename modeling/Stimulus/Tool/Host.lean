/-!
# The surroundings of a run

A run reads and writes files, asks for the present time and leaves notes about its progress. What
it needs for that is a **host**. A **file tree** is a host that lives in memory.

## Main definitions

* `Host`
* `FileTree` and `FileTree.host`
-/

namespace Stimulus.Tool

/-- What a run needs of its surroundings. A path is a text in which slashes separate the names. -/
structure Host (m : Type → Type) where
  /-- Whether a file or a directory stands at a path. -/
  exists? : String → m Bool
  /-- The content of a file, unless it cannot be read. -/
  read? : String → m (Option String)
  /-- Makes a directory and those above it, as far as they are missing; tells whether it is there
  afterwards. -/
  makeDirectory : String → m Bool
  /-- Writes the content of a file; tells whether that succeeded. -/
  write : (path content : String) → m Bool
  /-- The text of the present time. -/
  now : m String
  /-- Leaves a note. -/
  note : String → m Unit

/-- The names on the way to a place in a file tree. A place outside the tree is reached by `..` or,
from the root of all files, by `/`. -/
abbrev Place := List String

/-- Files and directories in memory. -/
structure FileTree where
  files : List (Place × String)
  /-- The directories that were made; those that lead to a file are not listed. -/
  directories : List Place
  deriving DecidableEq, Repr

namespace FileTree

/-- The names in a path. -/
def names (path : String) : List String :=
  path.splitOn "/"

/-- The place at which the names of a path start. -/
def start (path : String) : Place :=
  if path.startsWith "/" then ["/"] else []

/-- Whether a place is a directory: the tree itself and all that surrounds it, a directory that was
made, or one that leads to a file. -/
def isDirectory (t : FileTree) (place : Place) : Bool :=
  place.all (· == "..") || place == ["/"] || t.directories.contains place
    || t.files.any fun file => place.isPrefixOf file.1 && place.length < file.1.length

/-- Whether a place is a file. -/
def isFile (t : FileTree) (place : Place) : Bool :=
  (t.files.lookup place).isSome

/-- The place that a name leads to from a directory. -/
def enter (place : Place) (name : String) : Place :=
  if name = "" ∨ name = "." then place
  else if name ≠ ".." then place ++ [name]
  else if place = ["/"] then place
  else if place.all (· == "..") then place ++ [".."]
  else place.dropLast

/-- The place at the end of a path, if all before it are directories. -/
def walk? (t : FileTree) (place : Place) : List String → Option Place
  | [] => some place
  | name :: rest => if t.isDirectory place then t.walk? (enter place name) rest else none

/-- The place to which a path leads. -/
def place? (t : FileTree) (path : String) : Option Place :=
  t.walk? (start path) (names path)

/-- Makes all directories on a way, as far as they are missing. -/
def makeWay? (t : FileTree) (place : Place) : List String → Option FileTree
  | [] => some t
  | name :: rest =>
    let next := enter place name
    if t.isFile next then none
    else if t.isDirectory next then t.makeWay? next rest
    else FileTree.makeWay? { t with directories := next :: t.directories } next rest

/-- Writes a file. Its place must not be a directory. -/
def write? (t : FileTree) (path content : String) : Option FileTree := do
  let place ← t.place? path
  if t.isDirectory place then none
  else return { t with files := t.files.filter (·.1 != place) ++ [(place, content)] }

/-- Replaces the tree by another one, if there is one; tells whether there is. -/
def replace (next : FileTree → Option FileTree) : StateM FileTree Bool := do
  match next (← get) with
  | some t => set t; return true
  | none => return false

/-- A host whose files are the state of a computation. Its time stands still, and its notes are
dropped. -/
def host (now : String) : Host (StateM FileTree) where
  exists? path := do
    let t ← get
    return (t.place? path).any fun place => t.isFile place || t.isDirectory place
  read? path := do
    let t ← get
    return (t.place? path).bind fun place => t.files.lookup place
  makeDirectory path := replace (·.makeWay? (start path) (names path))
  write path content := replace (·.write? path content)
  now := return now
  note _ := return ()

end FileTree

end Stimulus.Tool
