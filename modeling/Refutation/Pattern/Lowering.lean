import Refutation.Pattern.Unify

/-!
# Formulas as patterns

`Formula.lower` turns a formula into a pattern: types are dropped, an application of a
constant becomes a head with one argument, any other application the head `app` with two,
and a quantified formula is sealed, so that it matches only itself.

`Pattern.raise` goes back. It cannot recover types, so symbols come back as individuals,
functions from individuals to individuals, or predicates of individuals.
-/

namespace Refutation

/-- The name of a connective in patterns. -/
def Connective.head : Connective → Head
  | .and => .conn "and"
  | .or => .conn "or"
  | .imp => .conn "implies"
  | .eq => .pred "="

/-- The head of an application whose function is not a constant. -/
def Head.app : Head := .fn "app"

namespace Formula

/-- The pattern of a formula. -/
def lower : Formula → Pattern
  | .var n _ => .var n
  | .const n _ => .atom n
  | .app f a =>
    match f.lower with
    | .atom n => .node (.fn n) [a.lower]
    | p => .node .app [p, a.lower]
  | .not b => .node (.conn "not") [b.lower]
  | .binary op l r => .node op.head [l.lower, r.lower]
  | .quant q n τ b => .sealed (.formula (.quant q n τ b))

/-- Whether two formulas can be made the same by giving patterns to their variables. -/
def unifiesWith (f g : Formula) : Bool :=
  unifiable f.lower g.lower

end Formula

/-- Why a pattern is no formula. -/
inductive RaiseError where
  /-- No connective has this name. -/
  | unknownConnective (name : String)
  /-- A connective has the wrong number of arguments. -/
  | wrongArity
  /-- A plain value stands where a pattern should. -/
  | notPattern (v : Json)
  /-- A plain value is sealed in the pattern. It is told only of a pattern that has no other
  fault. -/
  | sealedPlain (v : Json)
  deriving DecidableEq, Repr

/-- The wording of the refusals that have one. -/
def RaiseError.message? : RaiseError → Option String
  | .notPattern v => some ("not a unifier term: " ++ v.literal)
  | _ => none

/-- What builds a formula from the arguments of a connective. -/
inductive Builder where
  | not
  | binary (op : Connective)

namespace Builder

/-- The builder with a name. -/
def ofName? : String → Option Builder
  | "not" => some .not
  | "and" => some (.binary .and)
  | "or" => some (.binary .or)
  | "implies" => some (.binary .imp)
  | _ => none

/-- The number of arguments. -/
def arity : Builder → Nat
  | .not => 1
  | .binary _ => 2

/-- Build a formula. -/
def build : Builder → List Formula → Except RaiseError Formula
  | .not, [a] => .ok (.not a)
  | .binary op, [a, b] => .ok (.binary op a b)
  | _, _ => .error .wrongArity

/-- Build a formula from `n` arguments, if they could be raised. -/
def buildFrom (b : Builder) (n : Nat) : Except RaiseError (List Formula) → Except RaiseError Formula
  | .ok args => b.build args
  | .error (.sealedPlain v) => .error (if n = b.arity then .sealedPlain v else .wrongArity)
  | .error e => .error e

end Builder

namespace Pattern

/-- The formula of a function head and its arguments. -/
def raiseFn (name : String) : List Formula → Formula
  | [f, a] => if name = "app" then .app f a
    else (Formula.const name (.fn .individual .individual)).applyAll [f, a]
  | args => (Formula.const name (.fn .individual .individual)).applyAll args

/-- The formula of a predicate head and its arguments. -/
def raisePred (name : String) : List Formula → Formula
  | [l, r] => if name = "=" then .eq l r
    else (Formula.const name (.fn .individual .truth)).applyAll [l, r]
  | args => (Formula.const name (.fn .individual .truth)).applyAll args

mutual

/-- The formula of a pattern. -/
def raise : Pattern → Except RaiseError Formula
  | .var n => .ok (.var n .individual)
  | .atom n => .ok (.const n .individual)
  | .node (.fn n) args => do return raiseFn n (← raiseList args)
  | .node (.pred n) args => do return raisePred n (← raiseList args)
  | .node (.conn n) args =>
    match Builder.ofName? n with
    | none => .error (.unknownConnective n)
    | some b => b.buildFrom args.length (raiseList args)
  | .sealed (.formula f) => .ok f
  | .sealed (.plain v) => .error (.sealedPlain v)
  | .sealed (.notPlain v) => .error (.sealedPlain v)
  | .plain v => .error (.notPattern v)
termination_by structural p => p

/-- The formulas of patterns. -/
def raiseList : List Pattern → Except RaiseError (List Formula)
  | [] => .ok []
  | p :: ps =>
    match raise p, raiseList ps with
    | .ok f, .ok fs => .ok (f :: fs)
    | .ok _, .error e => .error e
    | .error (.sealedPlain v), .ok _ => .error (.sealedPlain v)
    | .error (.sealedPlain v), .error (.sealedPlain _) => .error (.sealedPlain v)
    | .error (.sealedPlain _), .error e => .error e
    | .error e, _ => .error e
termination_by structural ps => ps

end

end Pattern

end Refutation
