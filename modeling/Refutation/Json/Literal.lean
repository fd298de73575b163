import Refutation.Json.Basic
import Refutation.Text.Quoted

/-!
# Values in messages

How a document is shown inside a message: texts are quoted, lists stand in square
brackets and objects in braces, with a space after every comma and colon.
-/

namespace Refutation.Json

mutual

/-- A document as it is shown in a message. -/
def literal : Json → String
  | .null => "None"
  | .bool true => "True"
  | .bool false => "False"
  | .int n => toString n
  | .str s => Text.quoted s
  | .arr items => "[" ++ ", ".intercalate (literalItems items) ++ "]"
  | .obj fields => "\x7b" ++ ", ".intercalate (literalFields fields) ++ "\x7d"
termination_by structural j => j

/-- The items of an array as they are shown in a message. -/
def literalItems : List Json → List String
  | [] => []
  | j :: rest => literal j :: literalItems rest
termination_by structural items => items

/-- The fields of an object as they are shown in a message. -/
def literalFields : List (String × Json) → List String
  | [] => []
  | (k, v) :: rest => (Text.quoted k ++ ": " ++ literal v) :: literalFields rest
termination_by structural fields => fields

end

end Refutation.Json
