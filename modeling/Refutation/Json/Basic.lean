/-!
# JSON documents

Trees, logs and whole proof attempts are kept as JSON documents. All numbers in them
are integers. The fields of an object keep their order, which readers of a saved
document can see.

* `Json.get?`: a field of an object.
* `Json.ofFields`: an object in which the last of several fields of one name wins and
  stands where the first stood.
-/

namespace Refutation

/-- A JSON document whose numbers are integers. -/
inductive Json where
  | null
  | bool (b : Bool)
  | int (n : Int)
  | str (s : String)
  | arr (items : List Json)
  | obj (fields : List (String × Json))
  deriving Repr, Inhabited

namespace Json

mutual

/-- Equality of documents is decidable. -/
def decEq : (a b : Json) → Decidable (a = b)
  | .null, .null => isTrue rfl
  | .bool x, .bool y =>
    if h : x = y then isTrue (by rw [h]) else isFalse (by intro e; injection e; contradiction)
  | .int x, .int y =>
    if h : x = y then isTrue (by rw [h]) else isFalse (by intro e; injection e; contradiction)
  | .str x, .str y =>
    if h : x = y then isTrue (by rw [h]) else isFalse (by intro e; injection e; contradiction)
  | .arr xs, .arr ys =>
    match decEqItems xs ys with
    | isTrue h => isTrue (by rw [h])
    | isFalse h => isFalse (by intro e; injection e; contradiction)
  | .obj xs, .obj ys =>
    match decEqFields xs ys with
    | isTrue h => isTrue (by rw [h])
    | isFalse h => isFalse (by intro e; injection e; contradiction)
  | .null, .bool _ | .null, .int _ | .null, .str _ | .null, .arr _ | .null, .obj _ => isFalse nofun
  | .bool _, .null | .bool _, .int _ | .bool _, .str _ | .bool _, .arr _ | .bool _, .obj _ =>
    isFalse nofun
  | .int _, .null | .int _, .bool _ | .int _, .str _ | .int _, .arr _ | .int _, .obj _ =>
    isFalse nofun
  | .str _, .null | .str _, .bool _ | .str _, .int _ | .str _, .arr _ | .str _, .obj _ =>
    isFalse nofun
  | .arr _, .null | .arr _, .bool _ | .arr _, .int _ | .arr _, .str _ | .arr _, .obj _ =>
    isFalse nofun
  | .obj _, .null | .obj _, .bool _ | .obj _, .int _ | .obj _, .str _ | .obj _, .arr _ =>
    isFalse nofun
termination_by structural a => a

/-- Equality of lists of documents is decidable. -/
def decEqItems : (as bs : List Json) → Decidable (as = bs)
  | [], [] => isTrue rfl
  | [], _ :: _ => isFalse nofun
  | _ :: _, [] => isFalse nofun
  | a :: as, b :: bs =>
    match decEq a b with
    | isFalse h => isFalse (by intro e; injection e; contradiction)
    | isTrue h =>
      match decEqItems as bs with
      | isTrue h' => isTrue (by rw [h, h'])
      | isFalse h' => isFalse (by intro e; injection e; contradiction)
termination_by structural as => as

/-- Equality of lists of fields is decidable. -/
def decEqFields : (as bs : List (String × Json)) → Decidable (as = bs)
  | [], [] => isTrue rfl
  | [], _ :: _ => isFalse nofun
  | _ :: _, [] => isFalse nofun
  | (k, a) :: as, (l, b) :: bs =>
    if hk : k = l then
      match decEq a b with
      | isFalse h => isFalse (by intro e; injection e with e _; injection e; contradiction)
      | isTrue h =>
        match decEqFields as bs with
        | isTrue h' => isTrue (by rw [hk, h, h'])
        | isFalse h' => isFalse (by intro e; injection e; contradiction)
    else isFalse (by intro e; injection e with e _; injection e; contradiction)
termination_by structural as => as

end

instance : DecidableEq Json := decEq

/-- The field of an object. -/
def get? (key : String) : Json → Option Json
  | .obj fields => fields.lookup key
  | _ => none

/-- Set a field: in its old place if the name is there, else at the end. -/
def setField (key : String) (value : Json) : List (String × Json) → List (String × Json)
  | [] => [(key, value)]
  | (k, v) :: rest => if k = key then (k, value) :: rest else (k, v) :: setField key value rest

/-- An object from fields given in order of writing. -/
def ofFields (fields : List (String × Json)) : Json :=
  .obj (fields.foldl (fun acc f => setField f.1 f.2 acc) [])

/-- A list of texts. -/
def strings (ss : List String) : Json :=
  .arr (ss.map .str)

/-- A value that may be absent, which is then written as null. -/
def ofOption {α : Type} (f : α → Json) : Option α → Json
  | none => .null
  | some a => f a

end Json

end Refutation
