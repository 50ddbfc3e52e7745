/-!
# JSON text

The JSON values a program is written as, and their text: two spaces for each level, one element or
field to a line, fields in the order given.

gqlflow leaves this layout to a library. Out of scope: numbers and null, which no program holds.
-/

namespace SchemaToFlow

/-- A JSON value made of truth values, texts, lists and objects. -/
inductive Json where
  | bool (value : Bool)
  | string (value : String)
  | array (items : List Json)
  | object (fields : List (String × Json))
  deriving Repr

namespace Json

/-- The escape of a character that cannot stand in a JSON string as it is. -/
def escapeChar (c : Char) : List Char :=
  if c = '"' then ['\\', '"']
  else if c = '\\' then ['\\', '\\']
  else if c = '\n' then ['\\', 'n']
  else if c = '\r' then ['\\', 'r']
  else if c = '\t' then ['\\', 't']
  else if c = '\x08' then ['\\', 'b']
  else if c = '\x0c' then ['\\', 'f']
  else if c.toNat < 0x20 then
    ['\\', 'u', '0', '0', Nat.digitChar (c.toNat / 16), Nat.digitChar (c.toNat % 16)]
  else [c]

/-- A JSON string. -/
def quote (s : String) : String :=
  "\"" ++ String.ofList (s.toList.flatMap escapeChar) ++ "\""

/-- What stands before a line at some depth. -/
def margin (depth : Nat) : String := String.ofList (List.replicate (2 * depth) ' ')

/-- Items between brackets, each on a line of its own one level deeper; nothing between them if
there are none. -/
def enclose (depth : Nat) (opening closing : String) : List String → String
  | [] => opening ++ closing
  | items =>
    opening ++ "\n" ++ ",\n".intercalate (items.map (margin (depth + 1) ++ ·)) ++ "\n" ++
      margin depth ++ closing

mutual

/-- The text of a value whose lines stand at some depth. -/
def pretty (depth : Nat) : Json → String
  | .bool value => if value then "true" else "false"
  | .string value => quote value
  | .array items => enclose depth "[" "]" (prettyItems (depth + 1) items)
  | .object fields => enclose depth "\x7b" "\x7d" (prettyFields (depth + 1) fields)

/-- The texts of list elements. -/
def prettyItems (depth : Nat) : List Json → List String
  | [] => []
  | item :: items => pretty depth item :: prettyItems depth items

/-- The texts of fields. -/
def prettyFields (depth : Nat) : List (String × Json) → List String
  | [] => []
  | (key, value) :: fields =>
    (quote key ++ ": " ++ pretty depth value) :: prettyFields depth fields

end

end Json

end SchemaToFlow
