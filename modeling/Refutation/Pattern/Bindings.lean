import Refutation.Pattern.Basic

/-!
# Bindings

Bindings give patterns to variables. A pattern given to one variable may hold others that
are bound too, so bindings are applied by following chains (`Bindings.apply`). As long as
no chain comes back to where it started, a chain is no longer than the bindings are many,
and that many rounds reach its end.
-/

namespace Refutation

/-- Patterns for some variables; the first entry for a variable counts. -/
abbrev Bindings := List (String × Pattern)

namespace Bindings

/-- The pattern with its bound variables replaced, round after round. -/
def chase (s : Bindings) : Nat → Pattern → Pattern
  | 0, p => p
  | n + 1, p =>
    p.bind fun x =>
      match s.lookup x with
      | none => .var x
      | some q => s.chase n q

/-- The pattern with all chains of bindings followed to their ends. -/
def apply (s : Bindings) (p : Pattern) : Pattern :=
  s.chase s.length p

end Bindings

end Refutation
