import Refutation.Reading.Parser

/-!
# Sample problems

Formulas to try the prover on, each with the verdict to expect; none is expected where the
budget decides.
-/

namespace Refutation

/-- A sample problem. -/
structure Problem where
  name : String
  formula : String
  valid : Option Bool
  description : String
  deriving DecidableEq, Repr

namespace Problem

/-- The sample problems. -/
def samples : List Problem := [
  ⟨"identity", "A → A", some true, "Simplest tautology: one alpha step closes the root"⟩,
  ⟨"contraposition", "(A → B) → (¬B → ¬A)", some true,
    "Contraposition: branches on A → B, both close"⟩,
  ⟨"and_elimination", "A ∧ B → A", some true, "Conjunction elimination"⟩,
  ⟨"or_introduction", "A → A ∨ B", some true, "Disjunction introduction"⟩,
  ⟨"modus_ponens", "(A → B) → (A → B)", some true, "An implication implies itself"⟩,
  ⟨"excluded_middle", "A ∨ ¬A", some true, "Law of excluded middle"⟩,
  ⟨"disjunction", "A ∨ B", some false, "Not a tautology: both branches stay open"⟩,
  ⟨"universal_identity", "∀x:i. P(x) → P(x)", some true,
    "First-order identity, needs one witness"⟩,
  ⟨"quantifier_duality", "(∃x:i. P(x)) → ¬∀x:i. ¬P(x)", some true,
    "An existential contradicts the universal negation"⟩,
  ⟨"universal_instance", "(∀x:i. P(x)) → P(a)", some true,
    "Universal instantiation, closed by unifying P(c1) with P(a)"⟩,
  ⟨"drinker", "∃x:i. (P(x) → ∀y:i. P(y))", some false,
    "Drinker paradox: classically valid, but ¬∃ is instantiated only once, so a branch stays open"⟩,
  ⟨"unbounded_universal", "(∀x:i. P(x)) → Q(b)", none,
    "The kept ∀ re-fires every step and nothing closes: stops at the step limit, inconclusive"⟩]

/-- The sample problem with a name. -/
def find? (name : String) : Option Problem :=
  samples.find? (·.name == name)

/-- The goal of a problem. -/
def goal (p : Problem) : Except Reading.ParseError Formula :=
  Reading.parse p.formula

end Problem

end Refutation
