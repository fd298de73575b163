import Refutation.Json.Basic
import Refutation.Text.Quoted

/-!
# Writing JSON

Two layouts of one document: `Json.compact` without any space, and `Json.indented`
with two spaces for each level, every item on a line of its own. Only the quote, the
backslash and control characters are escaped.
-/

namespace Refutation.Json

/-- A character inside a JSON string. -/
def stringChar (c : Char) : List Char :=
  if c = Text.doubleQuote then ['\\', c]
  else if c = '\\' then ['\\', '\\']
  else if c = '\n' then ['\\', 'n']
  else if c = '\r' then ['\\', 'r']
  else if c = '\t' then ['\\', 't']
  else if c = '\x08' then ['\\', 'b']
  else if c = '\x0c' then ['\\', 'f']
  else if c.toNat < 0x20 then '\\' :: 'u' :: Text.hex 4 c.toNat
  else [c]

/-- A JSON string. -/
def string (s : String) : String :=
  String.ofList (Text.doubleQuote :: s.toList.flatMap stringChar ++ [Text.doubleQuote])

/-- The text of a document that has no parts. -/
def leaf : Json → String
  | .null => "null"
  | .bool true => "true"
  | .bool false => "false"
  | .int n => toString n
  | .str s => string s
  | .arr _ => "[]"
  | .obj _ => "\x7b\x7d"

mutual

/-- A document without spaces. -/
def compact : Json → String
  | .arr items => "[" ++ ",".intercalate (compactItems items) ++ "]"
  | .obj fields => "\x7b" ++ ",".intercalate (compactFields fields) ++ "\x7d"
  | j => leaf j
termination_by structural j => j

/-- The items of an array, each without spaces. -/
def compactItems : List Json → List String
  | [] => []
  | j :: rest => compact j :: compactItems rest
termination_by structural items => items

/-- The fields of an object, each without spaces. -/
def compactFields : List (String × Json) → List String
  | [] => []
  | (k, v) :: rest => (string k ++ ":" ++ compact v) :: compactFields rest
termination_by structural fields => fields

end

/-- The start of a line at a level. -/
def margin (level : Nat) : String :=
  "\n" ++ String.ofList (List.replicate (2 * level) ' ')

/-- Parts laid out one to a line, between brackets. -/
def block (level : Nat) (opening closing : String) (parts : List String) : String :=
  opening ++ margin (level + 1) ++ ("," ++ margin (level + 1)).intercalate parts ++
    margin level ++ closing

mutual

/-- A document laid out at a level. -/
def indentedAt (level : Nat) : Json → String
  | .arr (j :: rest) => block level "[" "]" (indentedItems (level + 1) (j :: rest))
  | .obj (f :: rest) => block level "\x7b" "\x7d" (indentedFields (level + 1) (f :: rest))
  | j => leaf j
termination_by structural j => j

/-- The items of an array laid out at a level. -/
def indentedItems (level : Nat) : List Json → List String
  | [] => []
  | j :: rest => indentedAt level j :: indentedItems level rest
termination_by structural items => items

/-- The fields of an object laid out at a level. -/
def indentedFields (level : Nat) : List (String × Json) → List String
  | [] => []
  | (k, v) :: rest => (string k ++ ": " ++ indentedAt level v) :: indentedFields level rest
termination_by structural fields => fields

end

/-- A document with two spaces for each level. -/
def indented (j : Json) : String :=
  indentedAt 0 j

end Refutation.Json
