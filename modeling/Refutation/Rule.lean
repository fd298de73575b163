import Refutation.Entry

/-!
# Rules

Every formula that can be expanded has one rule. The rules fall into four families: alpha
rules replace a formula by its parts, beta rules split the branch, gamma and delta rules
put a witness for a bound variable. A universal formula is kept beside its instance.

* `Formula.match?`: the rule for a formula and what it does (`Move`).
* `Entry.match?`: the same for an entry; a plain value has no rule.
-/

namespace Refutation

/-- Families of rules. -/
inductive Family where
  | alpha | beta | gamma | delta
  deriving DecidableEq, Repr

/-- The name of a family. -/
def Family.name : Family → String
  | .alpha => "alpha"
  | .beta => "beta"
  | .gamma => "gamma"
  | .delta => "delta"

/-- The rules. -/
inductive Rule where
  | doubleNegation
  | conjunction
  | negatedDisjunction
  | negatedImplication
  | implication
  | disjunction
  | negatedConjunction
  | universal
  | negatedExistential
  | existential
  | negatedUniversal
  deriving DecidableEq, Repr

namespace Rule

/-- All rules. -/
def all : List Rule :=
  [.doubleNegation, .conjunction, .negatedDisjunction, .negatedImplication, .implication,
    .disjunction, .negatedConjunction, .universal, .negatedExistential, .existential,
    .negatedUniversal]

/-- The name of a rule. -/
def name : Rule → String
  | .doubleNegation => "¬¬ elimination"
  | .conjunction => "∧ decomposition"
  | .negatedDisjunction => "¬∨ decomposition"
  | .negatedImplication => "¬→ decomposition"
  | .implication => "→ branching"
  | .disjunction => "∨ branching"
  | .negatedConjunction => "¬∧ branching"
  | .universal => "∀ elimination"
  | .negatedExistential => "¬∃ elimination"
  | .existential => "∃ elimination"
  | .negatedUniversal => "¬∀ elimination"

/-- The family of a rule. -/
def family : Rule → Family
  | .doubleNegation | .conjunction | .negatedDisjunction | .negatedImplication => .alpha
  | .implication | .disjunction | .negatedConjunction => .beta
  | .universal | .negatedExistential => .gamma
  | .existential | .negatedUniversal => .delta

/-- What a rule does, in words. -/
def description : Rule → String
  | .doubleNegation => "Double negation: ¬¬A becomes A"
  | .conjunction => "Conjunction: A∧B becomes A, B"
  | .negatedDisjunction => "De Morgan's law: ¬(A∨B) becomes ¬A, ¬B"
  | .negatedImplication => "Negated implication: ¬(A→B) becomes A, ¬B"
  | .implication => "Implication: A→B becomes ¬A | B (branches)"
  | .disjunction => "Disjunction: A∨B creates two branches"
  | .negatedConjunction => "De Morgan's law: ¬(A∧B) becomes ¬A | ¬B (branches)"
  | .universal => "Universal: ∀x P(x) instantiated to P(c), ∀x P(x) kept"
  | .negatedExistential => "Negated existential: ¬∃x P(x) becomes ¬P(c)"
  | .existential => "Existential: ∃x P(x) instantiated to P(c)"
  | .negatedUniversal => "Negated universal: ¬∀x P(x) becomes ¬P(c)"

/-- The rule with a name. -/
def ofName? (s : String) : Option Rule :=
  all.find? (·.name == s)

theorem ofName?_name (r : Rule) : ofName? r.name = some r := by
  cases r <;> decide

end Rule

/-- What a rule does with a formula. -/
inductive Move where
  /-- Put the parts in its place. -/
  | replace (parts : List Entry)
  /-- Split the branch. -/
  | split (left right : Entry)
  /-- Put a witness for the bound variable, if one is named, in the body; `keep` leaves the
  formula beside it. -/
  | instantiate (bound : Option String) (type : Ty) (body : Entry) (keep : Bool)
  deriving DecidableEq, Repr

/-- A formula together with the rule that expands it. -/
structure Match where
  rule : Rule
  formula : Entry
  move : Move
  deriving DecidableEq, Repr

/-- The rule and its effect for a formula; none for atoms and their negations. -/
def Formula.match? (f : Formula) : Option Match :=
  match f with
  | .not (.not a) => some ⟨.doubleNegation, f, .replace [a]⟩
  | .not (.or a b) => some ⟨.negatedDisjunction, f, .replace [Formula.not a, Formula.not b]⟩
  | .not (.imp a b) => some ⟨.negatedImplication, f, .replace [a, Formula.not b]⟩
  | .not (.and a b) => some ⟨.negatedConjunction, f, .split (Formula.not a) (Formula.not b)⟩
  | .not (.ex x τ b) =>
    some ⟨.negatedExistential, f, .instantiate (some x) τ (Formula.not b) false⟩
  | .not (.all x τ b) =>
    some ⟨.negatedUniversal, f, .instantiate (some x) τ (Formula.not b) false⟩
  | .and a b => some ⟨.conjunction, f, .replace [a, b]⟩
  | .imp a b => some ⟨.implication, f, .split (Formula.not a) b⟩
  | .or a b => some ⟨.disjunction, f, .split a b⟩
  | .all x τ b => some ⟨.universal, f, .instantiate (some x) τ b true⟩
  | .ex x τ b => some ⟨.existential, f, .instantiate (some x) τ b false⟩
  | _ => none

/-- The rule and its effect for an entry. -/
def Entry.match? : Entry → Option Match
  | .formula f => f.match?
  | .plain _ => none
  | .notPlain _ => none

end Refutation
