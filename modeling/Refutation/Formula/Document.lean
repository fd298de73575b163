import Refutation.Entry
import Refutation.Json.Decode

/-!
# Formulas as documents

A formula is written as an object whose field `tag` tells its kind; the other fields
depend on the tag. Reading fetches the tag first and then the fields in the order in
which they are written, and ignores all others.

Not everything has a document that can be read back: an unknown type has none, and neither
has a plain value in place of a formula (`EncodeError`).
-/

namespace Refutation

/-- Why something cannot be written as a document. -/
inductive EncodeError where
  /-- A plain value stands in place of a formula. -/
  | plainValue (v : Json)
  /-- A symbol has no known type. -/
  | untyped
  /-- A witness has no name. -/
  | namelessWitness
  deriving DecidableEq, Repr

namespace Ty

/-- Whether a type is known in all its parts. -/
def isKnown : Ty → Bool
  | .individual => true
  | .truth => true
  | .fn a b => a.isKnown && b.isKnown
  | .unknown => false

/-- The document of a type; it can be read back if the type is known. -/
def toJson : Ty → Json
  | .individual => .str "i"
  | .truth => .str "o"
  | .fn a b => .obj [("fn", .arr [a.toJson, b.toJson])]
  | .unknown => .null

/-- The type with a name. -/
def ofName : String → Except DecodeError Ty
  | "i" => .ok .individual
  | "o" => .ok .truth
  | _ => .error .wrongKind

/-- The function type of two named types. -/
def ofNames : List String → Except DecodeError Ty
  | [a, b] => do
    let domain ← ofName a
    let range ← ofName b
    return .fn domain range
  | _ => .error .wrongParts

mutual

/-- The type of a document. -/
def ofJson : Json → Except DecodeError Ty
  | .str s => ofName s
  | .obj fields => ofFields fields
  | _ => .error .wrongKind
termination_by structural j => j

/-- The function type whose parts are in the field `fn`. -/
def ofFields : List (String × Json) → Except DecodeError Ty
  | [] => .error (.missing "fn")
  | (k, v) :: rest => if k = "fn" then ofParts v else ofFields rest
termination_by structural fields => fields

/-- The function type with two parts. They are normally listed in an array; a text of two
letters and an object of two keys are read part by part as well. -/
def ofParts : Json → Except DecodeError Ty
  | .arr items => ofItems items
  | .str s => ofNames (s.toList.map String.singleton)
  | .obj fields => ofNames (fields.map Prod.fst)
  | _ => .error .wrongKind
termination_by structural j => j

/-- The function type with two parts listed. -/
def ofItems : List Json → Except DecodeError Ty
  | [a, b] => do
    let domain ← ofJson a
    let range ← ofJson b
    return .fn domain range
  | _ => .error .wrongParts
termination_by structural items => items

end

end Ty

/-- The kinds of formulas. -/
inductive Tag where
  | var | const | app | not
  | binary (op : Connective)
  | quant (q : Quantifier)
  deriving DecidableEq, Repr

namespace Tag

/-- The name of a kind in documents. -/
def name : Tag → String
  | .var => "var"
  | .const => "const"
  | .app => "app"
  | .not => "not"
  | .binary .and => "and"
  | .binary .or => "or"
  | .binary .imp => "imp"
  | .binary .eq => "equals"
  | .quant .all => "forall"
  | .quant .ex => "exists"

/-- The kind with a name. -/
def ofName? : String → Option Tag
  | "var" => some .var
  | "const" => some .const
  | "app" => some .app
  | "not" => some .not
  | "and" => some (.binary .and)
  | "or" => some (.binary .or)
  | "imp" => some (.binary .imp)
  | "equals" => some (.binary .eq)
  | "forall" => some (.quant .all)
  | "exists" => some (.quant .ex)
  | _ => none

/-- The spelling of a document that stands in place of a tag; arrays and objects have none. -/
def spelling? : Json → Option String
  | .str s => some s
  | .arr _ => none
  | .obj _ => none
  | j => some j.literal

/-- The kind a document names. -/
def ofJson (j : Json) : Except DecodeError Tag :=
  match spelling? j with
  | none => .error .wrongKind
  | some s =>
    match ofName? s with
    | none => .error (.unknownTag s)
    | some t => .ok t

theorem ofName?_name (t : Tag) : ofName? t.name = some t := by
  cases t with
  | binary op => cases op <;> rfl
  | quant q => cases q <;> rfl
  | _ => rfl

end Tag

namespace Formula

/-- Whether all symbols and bound variables of a formula have known types. -/
def isTyped : Formula → Bool
  | .var _ τ => τ.isKnown
  | .const _ τ => τ.isKnown
  | .app f a => f.isTyped && a.isTyped
  | .not b => b.isTyped
  | .binary _ a b => a.isTyped && b.isTyped
  | .quant _ _ τ b => τ.isKnown && b.isTyped

/-- Why a formula cannot be written. -/
def encodeError? (f : Formula) : Option EncodeError :=
  if f.isTyped then none else some .untyped

/-- The document of a formula; it can be read back if the formula is typed. -/
def toJson : Formula → Json
  | .var n τ => .obj [("tag", .str "var"), ("name", .str n), ("type", τ.toJson)]
  | .const n τ => .obj [("tag", .str "const"), ("name", .str n), ("type", τ.toJson)]
  | .app f a => .obj [("tag", .str "app"), ("fn", f.toJson), ("arg", a.toJson)]
  | .not b => .obj [("tag", .str "not"), ("body", b.toJson)]
  | .binary op a b =>
    .obj [("tag", .str (Tag.binary op).name), ("left", a.toJson), ("right", b.toJson)]
  | .quant q n τ b =>
    .obj [("tag", .str (Tag.quant q).name), ("name", .str n), ("type", τ.toJson),
      ("body", b.toJson)]

mutual

/-- The formula of a document. -/
def ofJson : Json → Except DecodeError Formula
  | .obj fields => do
    match ← Json.required fields "tag" Tag.ofJson with
    | .var =>
      let n ← Json.required fields "name" Json.asText
      let τ ← Json.required fields "type" Ty.ofJson
      return .var n τ
    | .const =>
      let n ← Json.required fields "name" Json.asText
      let τ ← Json.required fields "type" Ty.ofJson
      return .const n τ
    | .app =>
      let fn ← ofField "fn" fields
      let arg ← ofField "arg" fields
      return .app fn arg
    | .not =>
      let body ← ofField "body" fields
      return .not body
    | .binary op =>
      let left ← ofField "left" fields
      let right ← ofField "right" fields
      return .binary op left right
    | .quant q =>
      let n ← Json.required fields "name" Json.asText
      let τ ← Json.required fields "type" Ty.ofJson
      let body ← ofField "body" fields
      return .quant q n τ body
  | _ => .error .wrongKind
termination_by structural j => j

/-- The formula in a field that has to be there. -/
def ofField (key : String) : List (String × Json) → Except DecodeError Formula
  | [] => .error (.missing key)
  | (k, v) :: rest => if k = key then ofJson v else ofField key rest
termination_by structural fields => fields

end

end Formula

namespace Entry

/-- Why an entry cannot be written. -/
def encodeError? : Entry → Option EncodeError
  | .formula f => f.encodeError?
  | .plain v => some (.plainValue v)
  | .notPlain v => some (.plainValue v)

/-- The document of an entry; it can be read back if the entry is a typed formula. -/
def toJson : Entry → Json
  | .formula f => f.toJson
  | .plain v => v
  | .notPlain v => .obj [("tag", .str Tag.not.name), ("body", v)]

/-- The entry of a document, which is a formula. -/
def ofJson (j : Json) : Except DecodeError Entry :=
  .formula <$> Formula.ofJson j

end Entry

end Refutation
