/-!
# Formulas

Formulas and the terms they speak about are one kind of expression: variables and
constants with a simple type, application of one expression to another, negation, the
binary connectives, equality and the two quantifiers. A quantifier binds a name in its
body; nothing here renames bound names.

* `Formula.negate`: the negation, with an outer negation cancelled.
* `Formula.applyAll`, `Formula.head`, `Formula.args`: application to several arguments
  and its parts.
-/

namespace Refutation

/-- Simple types: individuals, truth values and functions. -/
inductive Ty where
  | individual
  | truth
  | fn (domain range : Ty)
  /-- The type of a witness that was minted without one. -/
  | unknown
  deriving DecidableEq, Repr, Inhabited

/-- What joins two expressions. -/
inductive Connective where
  | and | or | imp | eq
  deriving DecidableEq, Repr, Inhabited

/-- What binds a variable. -/
inductive Quantifier where
  | all | ex
  deriving DecidableEq, Repr, Inhabited

/-- Formulas and terms. -/
inductive Formula where
  | var (name : String) (type : Ty)
  | const (name : String) (type : Ty)
  | app (fn arg : Formula)
  | not (body : Formula)
  | binary (op : Connective) (left right : Formula)
  | quant (q : Quantifier) (name : String) (type : Ty) (body : Formula)
  deriving DecidableEq, Repr, Inhabited

namespace Formula

/-- Conjunction. -/
@[match_pattern] abbrev and (left right : Formula) : Formula := .binary .and left right

/-- Disjunction. -/
@[match_pattern] abbrev or (left right : Formula) : Formula := .binary .or left right

/-- Implication. -/
@[match_pattern] abbrev imp (left right : Formula) : Formula := .binary .imp left right

/-- Equality. -/
@[match_pattern] abbrev eq (left right : Formula) : Formula := .binary .eq left right

/-- Universal quantification. -/
@[match_pattern] abbrev all (name : String) (type : Ty) (body : Formula) : Formula :=
  .quant .all name type body

/-- Existential quantification. -/
@[match_pattern] abbrev ex (name : String) (type : Ty) (body : Formula) : Formula :=
  .quant .ex name type body

/-- The negation of a formula; an outer negation is taken off instead. -/
def negate : Formula → Formula
  | .not a => a
  | a => .not a

/-- Application to several arguments, one after another. -/
def applyAll (f : Formula) (args : List Formula) : Formula :=
  args.foldl .app f

/-- What is left when all arguments are taken off. -/
def head : Formula → Formula
  | .app f _ => f.head
  | f => f

/-- The arguments of an application, the first argument first. -/
def args : Formula → List Formula
  | .app f a => f.args ++ [a]
  | _ => []

/-- The name of a variable or constant. -/
def symbol? : Formula → Option String
  | .var n _ => some n
  | .const n _ => some n
  | _ => none

/-- The name a formula carries at its root: that of a symbol or of a bound variable. -/
def name? : Formula → Option String
  | .var n _ => some n
  | .const n _ => some n
  | .quant _ n _ _ => some n
  | _ => none

/-- Whether a formula is a negation. -/
def isNot : Formula → Bool
  | .not _ => true
  | _ => false

theorem applyAll_append (f : Formula) (as bs : List Formula) :
    f.applyAll (as ++ bs) = (f.applyAll as).applyAll bs := by
  simp [applyAll]

/-- A formula is its head applied to its arguments. -/
theorem applyAll_head_args (f : Formula) : f.head.applyAll f.args = f := by
  induction f with
  | app f a ihf _ =>
    rw [head, args, applyAll_append, ihf]
    rfl
  | _ => rfl

end Formula

end Refutation
