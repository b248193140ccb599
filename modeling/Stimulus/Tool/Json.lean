/-!
# JSON text

Reports are printed as JSON, with one item of a list and one field of an object on each line, two
spaces deeper than the brackets around them.

## Main definitions

* `Json`, `Json.pretty`
* `Json.quote`, the written form of a text
-/

namespace Stimulus.Tool

/-- A JSON value. Reports hold no other ones. -/
inductive Json where
  | text (content : String)
  | number (value : Nat)
  | list (items : List Json)
  | object (fields : List (String × Json))

namespace Json

/-- The hexadecimal digits, of which a control character has two. -/
def controlCode (n : Nat) : List Char :=
  [Nat.digitChar (n / 16), Nat.digitChar (n % 16)]

/-- The written form of one character: quotes, backslashes and control characters are escaped. -/
def escape (c : Char) : List Char :=
  match c with
  | '"' => ['\\', '"']
  | '\\' => ['\\', '\\']
  | '\x08' => ['\\', 'b']
  | '\x0c' => ['\\', 'f']
  | '\n' => ['\\', 'n']
  | '\r' => ['\\', 'r']
  | '\t' => ['\\', 't']
  | c => if c < ' ' then ['\\', 'u', '0', '0'] ++ controlCode c.toNat else [c]

/-- The written form of a text. -/
def quote (content : String) : String :=
  String.ofList ('"' :: content.toList.flatMap escape ++ ['"'])

/-- Puts entries on lines of their own between brackets that stand at a given depth. Brackets
without entries stay together. -/
def bracketed (left right : String) (depth : Nat) (entries : List String) : String :=
  if entries.isEmpty then left ++ right
  else
    let margin := fun n => String.ofList (List.replicate (2 * n) ' ')
    left ++ "\n" ++ String.intercalate ",\n" (entries.map (margin (depth + 1) ++ ·)) ++ "\n"
      ++ margin depth ++ right

mutual

/-- The text of a value that stands at a given depth. -/
def pretty (depth : Nat) : Json → String
  | .text content => quote content
  | .number value => toString value
  | .list items => bracketed "[" "]" depth (prettyItems (depth + 1) items)
  | .object fields => bracketed "\x7b" "\x7d" depth (prettyFields (depth + 1) fields)

/-- The texts of the items of a list. -/
def prettyItems (depth : Nat) : List Json → List String
  | [] => []
  | item :: rest => item.pretty depth :: prettyItems depth rest

/-- The texts of the fields of an object. -/
def prettyFields (depth : Nat) : List (String × Json) → List String
  | [] => []
  | (name, value) :: rest => (quote name ++ ": " ++ value.pretty depth) :: prettyFields depth rest

end

end Json

end Stimulus.Tool
