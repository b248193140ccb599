import Stimulus.Toml.Line

/-!
# TOML files

The fields of a file belong to the table that the header before them names, or to the outermost
table if there is no such header.

## Main definitions

* `Toml.Document.parse?`, the outermost table of a file
-/

namespace Stimulus.Toml

/-- A file of which some lines have been read: the outermost table, and the path of the table to
which the next field belongs. -/
structure Document where
  fields : Fields
  current : List String

namespace Document

/-- The file without lines. -/
def empty : Document :=
  ⟨[], []⟩

/-- Adds a line to a file. -/
def add? (d : Document) : Line → Option Document
  | .field key value => do
    let fields ← alter? false (fun _ inner => inner.place? key value) d.current .header d.fields
    return { d with fields }
  | .table key => return ⟨← d.fields.define? key, key.path ++ [key.name]⟩
  | .item key => return ⟨← d.fields.extend? key, key.path ++ [key.name]⟩

/-- A byte order mark at the start of a text does not belong to it. -/
def dropMark : List Char → List Char
  | '\ufeff' :: rest => rest
  | s => s

/-- The outermost table of a file, if its text is well formed. -/
def parse? (text : String) : Option Fields := do
  let lines ← lines? (dropMark text.toList)
  return (← lines.foldlM add? empty).fields

end Document

end Stimulus.Toml
