import Refutation.Json.Basic

/-!
# Faults in documents

The causes for which a document is refused, and the readers of plain values and fields
that all readers of documents share.
-/

namespace Refutation

/-- Why a document is refused. -/
inductive DecodeError where
  /-- An object lacks a field. -/
  | missing (key : String)
  /-- No kind of formula has this tag. -/
  | unknownTag (tag : String)
  /-- A function type has a number of parts other than two. -/
  | wrongParts
  /-- Something else stands where a formula, a type, a list or an entry should. -/
  | wrongKind
  /-- Something else stands where a node or a table should. -/
  | notTable
  deriving DecidableEq, Repr

namespace Json

/-- A text. -/
def asText : Json → Except DecodeError String
  | .str s => .ok s
  | _ => .error .wrongKind

/-- An integer. -/
def asInt : Json → Except DecodeError Int
  | .int n => .ok n
  | _ => .error .wrongKind

/-- A truth value. -/
def asBool : Json → Except DecodeError Bool
  | .bool b => .ok b
  | _ => .error .wrongKind

/-- A text or null. -/
def asText? : Json → Except DecodeError (Option String)
  | .null => .ok none
  | j => some <$> j.asText

/-- The items of a document that is read as a list: those of an array, the keys of an
object, the characters of a text. -/
def asItems : Json → Except DecodeError (List Json)
  | .arr items => .ok items
  | .obj fields => .ok (fields.map fun f => .str f.1)
  | .str s => .ok (s.toList.map fun c => .str (String.singleton c))
  | _ => .error .wrongKind

/-- A list of texts. -/
def asTexts (j : Json) : Except DecodeError (List String) := do
  (← j.asItems).mapM asText

/-- A field that has to be there. -/
def required {α : Type} (fields : List (String × Json)) (key : String)
    (read : Json → Except DecodeError α) : Except DecodeError α :=
  match fields.lookup key with
  | none => .error (.missing key)
  | some v => read v

/-- A field that may be left out. -/
def optional {α : Type} (fields : List (String × Json)) (key : String) (default : α)
    (read : Json → Except DecodeError α) : Except DecodeError α :=
  match fields.lookup key with
  | none => .ok default
  | some v => read v

end Json

end Refutation
