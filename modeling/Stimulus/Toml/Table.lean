import Stimulus.Toml.Value

/-!
# Tables that grow

The lines of a file add to its tables one by one. A key leads through tables, some of which it
makes on the way. It may not lead through a table in braces, and a dotted key may not lead through
a table that a header has named; nothing may be defined twice. A table that headers have only
implied is taken over by the first dotted key that leads through it, and no header may name it
after that.

## Main definitions

* `Toml.alter?`, which changes the table at the end of a path
* `Toml.Fields.place?`, which puts a value under a key
* `Toml.Fields.define?` and `Toml.Fields.extend?`, which make the tables that headers name
-/

namespace Stimulus.Toml

/-- The origin of a table that a path makes, given whether it is the path of a dotted key. -/
def Origin.ofPath (dotted : Bool) : Origin :=
  if dotted then .dotted else .implied

/-- The origin of a table after a path has led through it, if the path may do so. -/
def Origin.pass? (dotted : Bool) : Origin → Option Origin
  | .implied => some (.ofPath dotted)
  | .dotted => some .dotted
  | .header => if dotted then none else some .header
  | .braced => none

/-- Replaces the value of a field. -/
def Fields.replace (name : String) (value : Value) (fields : Fields) : Fields :=
  fields.map fun field => if field.1 == name then (name, value) else field

/-- Changes the table at the end of a path, starting from a table with a given origin. Tables that
are missing on the way are made. A path through an array of tables leads through its last item. -/
def alter? (dotted : Bool) (change : Origin → Fields → Option Fields) :
    List String → Origin → Fields → Option Fields
  | [], origin, fields => change origin fields
  | name :: path, _, fields =>
    match fields.lookup name with
    | none => do
      let origin := Origin.ofPath dotted
      return fields ++ [(name, .table origin (← alter? dotted change path origin []))]
    | some (.table origin inner) => do
      let origin ← origin.pass? dotted
      return fields.replace name (.table origin (← alter? dotted change path origin inner))
    | some (.array true items) =>
      match items.getLast? with
      | some (.table origin inner) => do
        let last := Value.table origin (← alter? dotted change path origin inner)
        return fields.replace name (.array true (items.dropLast ++ [last]))
      | _ => none
    | some _ => none

namespace Fields

/-- Puts a value under a key. Its last name must be new, in a table that either holds the whole key
or was made by dotted keys. -/
def place? (key : Key) (value : Value) (fields : Fields) : Option Fields :=
  alter? true (fun origin inner =>
    if (key.path ≠ [] ∧ origin ≠ .dotted) ∨ (inner.lookup key.name).isSome then none
    else some (inner ++ [(key.name, value)])) key.path .header fields

/-- Makes the table that a header names. The table must be new, or no more than implied. -/
def define? (key : Key) (fields : Fields) : Option Fields :=
  alter? false (fun _ inner =>
    match inner.lookup key.name with
    | none => some (inner ++ [(key.name, .table .header [])])
    | some (.table .implied known) => some (inner.replace key.name (.table .header known))
    | some _ => none) key.path .header fields

/-- Adds an item to the array of tables that a header names. -/
def extend? (key : Key) (fields : Fields) : Option Fields :=
  alter? false (fun _ inner =>
    match inner.lookup key.name with
    | none => some (inner ++ [(key.name, .array true [.table .header []])])
    | some (.array true items) =>
      some (inner.replace key.name (.array true (items ++ [.table .header []])))
    | some _ => none) key.path .header fields

end Fields

end Stimulus.Toml
