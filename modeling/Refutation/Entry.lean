import Refutation.Formula.Printer
import Refutation.Json.Literal

/-!
# Entries

A caller may hand over a plain value where a formula is expected, as a goal or as a part of
an expansion. Such a value is kept and shown like a formula, it has no rule, and the
operations that need a formula name it when they refuse it.

* `Entry.text`: every entry has a text.
* `Entry.asFormula`: the formula of an entry, or the plain value that is none.
-/

namespace Refutation

/-- What stands where a formula is expected. -/
inductive Entry where
  | formula (f : Formula)
  /-- A value that is no formula. -/
  | plain (v : Json)
  /-- The negation of a value that is no formula. -/
  | notPlain (v : Json)
  deriving DecidableEq, Repr

/-- An operation on formulas was given a plain value. -/
structure NotFormula where
  value : Json
  deriving DecidableEq, Repr

/-- The wording of the refusal. -/
def NotFormula.message (e : NotFormula) : String :=
  "not a term: " ++ e.value.literal

namespace Entry

instance : Coe Formula Entry := ⟨.formula⟩

/-- The text of an entry. -/
def text : Entry → String
  | .formula f => f.text
  | .plain v => v.literal
  | .notPlain v => "¬" ++ v.literal

/-- The text of a list of entries. -/
def listText (es : List Entry) : String :=
  if es.isEmpty then "[empty]" else ", ".intercalate (es.map text)

/-- The text of an entry that may be absent. -/
def optionText : Option Entry → String
  | none => Json.null.literal
  | some e => e.text

/-- An entry, unless it is null, which counts as absent. -/
def present : Entry → Option Entry
  | .plain .null => none
  | e => some e

/-- The negation of an entry; an outer negation is taken off instead. -/
def negate : Entry → Entry
  | .formula f => .formula f.negate
  | .plain v => .notPlain v
  | .notPlain v => .plain v

/-- Whether an entry is a negation. -/
def isNot : Entry → Bool
  | .formula f => f.isNot
  | .plain _ => false
  | .notPlain _ => true

/-- The formula of an entry. -/
def asFormula : Entry → Except NotFormula Formula
  | .formula f => .ok f
  | .plain v => .error ⟨v⟩
  | .notPlain v => .error ⟨v⟩

end Entry

end Refutation
