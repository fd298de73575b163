import Refutation.Formula.Basic
import Refutation.Text.LetterCase
import Refutation.Text.Quoted

/-!
# The signature

What a name in a formula text means. A few names are declared: three propositions, two
predicates of one argument and one of two, three functions. Any other single small
letter is a variable, any other name with a capital first letter a proposition, and all
remaining names are individuals. Two types can be named.
-/

namespace Refutation.Signature

/-- The declared names and their types. -/
def declared : List (String × Ty) :=
  let unary := Ty.fn .individual .truth
  let function := Ty.fn .individual .individual
  [("A", .truth), ("B", .truth), ("C", .truth), ("P", unary), ("Q", unary),
    ("R", .fn .individual unary), ("f", function), ("g", function), ("h", function)]

/-- The symbol with a name. -/
def symbol (name : String) : Formula :=
  match declared.lookup name, name.toList with
  | some τ, _ => .const name τ
  | none, [c] =>
    if Text.isLower c then .var name .individual
    else if Text.isUpper c then .const name .truth
    else .const name .individual
  | none, c :: _ => if Text.isUpper c then .const name .truth else .const name .individual
  | none, [] => .const name .individual

/-- The symbol with a name, if the name is not empty. -/
def symbol? (name : String) : Option Formula :=
  if name.isEmpty then none else some (symbol name)

/-- A type annotation that names no type. -/
structure UnknownType where
  name : String
  deriving DecidableEq, Repr

/-- The wording of the refusal. -/
def UnknownType.message (e : UnknownType) : String :=
  "unknown type " ++ Text.quoted e.name ++ "; expected 'i' or 'o'"

/-- The type an annotation names; without an annotation a variable is an individual. -/
def type : Option String → Except UnknownType Ty
  | none => .ok .individual
  | some "i" => .ok .individual
  | some "o" => .ok .truth
  | some n => .error ⟨n⟩

end Refutation.Signature
