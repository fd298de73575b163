import Refutation.Formula.Basic

/-!
# Substitution

`Formula.subst` replaces the free occurrences of a variable. A quantifier that binds
the same name stops it. Bound names are never renamed, so a free variable of the
replacement can be captured.
-/

namespace Refutation.Formula

/-- The formula with `r` for every free occurrence of the variable `x`. -/
def subst (f : Formula) (x : String) (r : Formula) : Formula :=
  match f with
  | .var n τ => if n = x then r else .var n τ
  | .const n τ => .const n τ
  | .app f a => .app (f.subst x r) (a.subst x r)
  | .not b => .not (b.subst x r)
  | .binary op a b => .binary op (a.subst x r) (b.subst x r)
  | .quant q n τ b => if n = x then .quant q n τ b else .quant q n τ (b.subst x r)

/-- The names of the variables that occur free, from left to right. -/
def freeVars : Formula → List String
  | .var n _ => [n]
  | .const _ _ => []
  | .app f a => f.freeVars ++ a.freeVars
  | .not b => b.freeVars
  | .binary _ a b => a.freeVars ++ b.freeVars
  | .quant _ n _ b => b.freeVars.filter (· ≠ n)

/-- Whether a variable occurs free. -/
def occursFree (f : Formula) (x : String) : Bool :=
  f.freeVars.contains x

/-- The free variables, each once and in alphabetical order. -/
def freeNames (f : Formula) : List String :=
  f.freeVars.eraseDups.mergeSort fun a b => decide (a ≤ b)

end Refutation.Formula
