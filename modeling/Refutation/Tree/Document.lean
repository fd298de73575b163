import Refutation.Formula.Document
import Refutation.Tree.Basic

/-!
# Proof trees as documents

A node is written with all fields of its label and the list of its children. When it is
read, only the formulas and the number have to be there. The formulas are read first,
then the children, then the number, and the formula of origin last.
-/

namespace Refutation

/-- The document of instantiations. -/
def instantiationsToJson (is : List Instantiation) : Json :=
  .arr (is.map .arr)

/-- Instantiations from a document. -/
def instantiationsOfJson (j : Json) : Except DecodeError (List Instantiation) := do
  (← j.asItems).mapM Json.asItems

namespace Entry

/-- Entries from a document that lists them. -/
def listOfJson (j : Json) : Except DecodeError (List Entry) := do
  (← j.asItems).mapM ofJson

/-- An entry from a document, or none from null. -/
def optionOfJson : Json → Except DecodeError (Option Entry)
  | .null => .ok none
  | j => some <$> ofJson j

end Entry

namespace Tree

mutual

/-- Why a tree cannot be written. The formulas of a node come first, then its children. -/
def encodeError? : Tree → Option EncodeError
  | .node l ts =>
    l.formulas.findSome? Entry.encodeError? <|> encodeErrorIn? ts <|>
      l.origin.bind Entry.encodeError?
termination_by structural t => t

/-- Why one of several trees cannot be written. -/
def encodeErrorIn? : List Tree → Option EncodeError
  | [] => none
  | t :: ts => encodeError? t <|> encodeErrorIn? ts
termination_by structural ts => ts

end

mutual

/-- The document of a tree; it can be read back if nothing in it prevents that. -/
def toJson : Tree → Json
  | .node l ts => .obj [
      ("id", .int l.id),
      ("formulas", .arr (l.formulas.map Entry.toJson)),
      ("closed", .bool l.closed),
      ("children", .arr (toJsonList ts)),
      ("rule", .ofOption .str l.rule),
      ("rule_description", .ofOption .str l.ruleDescription),
      ("step", .int l.step),
      ("branch_path", .strings l.path),
      ("instantiations", instantiationsToJson l.instantiations),
      ("node_type", .str l.status.name),
      ("closure_reason", .ofOption .str l.closureReason),
      ("original_formula", .ofOption Entry.toJson l.origin)]
termination_by structural t => t

/-- The documents of several trees. -/
def toJsonList : List Tree → List Json
  | [] => []
  | t :: ts => toJson t :: toJsonList ts
termination_by structural ts => ts

end

mutual

/-- The tree of a document. -/
def ofJson : Json → Except DecodeError Tree
  | .obj fields => do
    let formulas ← Json.required fields "formulas" Entry.listOfJson
    let closed ← Json.optional fields "closed" false Json.asBool
    let children ← ofChildren fields
    let id ← Json.required fields "id" Json.asInt
    let rule ← Json.optional fields "rule" none Json.asText?
    let ruleDescription ← Json.optional fields "rule_description" none Json.asText?
    let step ← Json.optional fields "step" 0 Json.asInt
    let path ← Json.optional fields "branch_path" ["root"] Json.asTexts
    let instantiations ← Json.optional fields "instantiations" [] instantiationsOfJson
    let status ← Json.optional fields "node_type" "open" Json.asText
    let closureReason ← Json.optional fields "closure_reason" none Json.asText?
    let origin ← Json.optional fields "original_formula" none Entry.optionOfJson
    return .node
      { id, formulas, closed, rule, ruleDescription, step, path, instantiations,
        status := ⟨status⟩, closureReason, origin } children
  | _ => .error .notTable
termination_by structural j => j

/-- The trees in the field `children`, which may be left out. -/
def ofChildren : List (String × Json) → Except DecodeError (List Tree)
  | [] => .ok []
  | (k, v) :: rest => if k = "children" then ofForest v else ofChildren rest
termination_by structural fields => fields

/-- The trees of a document that lists them. -/
def ofForest : Json → Except DecodeError (List Tree)
  | .arr items => ofJsonList items
  | .str s => if s.isEmpty then .ok [] else .error .notTable
  | .obj fields => if fields.isEmpty then .ok [] else .error .notTable
  | _ => .error .wrongKind
termination_by structural j => j

/-- The trees of several documents. -/
def ofJsonList : List Json → Except DecodeError (List Tree)
  | [] => .ok []
  | j :: js => do
    let t ← ofJson j
    let ts ← ofJsonList js
    return t :: ts
termination_by structural js => js

end

end Tree

end Refutation
