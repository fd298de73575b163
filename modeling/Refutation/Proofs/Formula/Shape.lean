import Refutation.Formula.Substitution
import Refutation.Rule

/-!
# Shapes of formulas

The eleven rules come down to four shapes. An alpha formula says that all its parts
hold, a beta formula that one of two does, a gamma formula that every instance of its
body holds, a delta formula that some instance does. Everything else is a literal.

* `Formula.shape`: the shape of a formula, and `match?_some` its agreement with the rule
  that expands it.
* `Formula.parts`: what takes the place of a formula, one list for each branch.
* `Formula.of_mem_pieces`: **a property that passes through the connectives passes from a
  formula to its pieces**, whatever the rule.
-/

namespace Refutation

/-- What a formula says by its outermost signs. -/
inductive Shape where
  | literal
  | alpha (parts : List Formula)
  | beta (left right : Formula)
  /-- Every instance of the body holds; `keep` tells whether the formula stays. -/
  | gamma (keep : Bool) (name : String) (type : Ty) (body : Formula)
  /-- Some instance of the body holds. -/
  | delta (name : String) (type : Ty) (body : Formula)
  deriving DecidableEq, Repr

namespace Shape

/-- What a rule does with a formula of this shape. -/
def move? : Shape → Option Move
  | .literal => none
  | .alpha ps => some (.replace (ps.map .formula))
  | .beta a b => some (.split a b)
  | .gamma keep x τ b => some (.instantiate (some x) τ b keep)
  | .delta x τ b => some (.instantiate (some x) τ b false)

/-- The family of the rules for this shape. -/
def family? : Shape → Option Family
  | .literal => none
  | .alpha _ => some .alpha
  | .beta _ _ => some .beta
  | .gamma _ _ _ _ => some .gamma
  | .delta _ _ _ => some .delta

/-- The formulas directly inside, with bound variables left free. -/
def pieces : Shape → List Formula
  | .literal => []
  | .alpha ps => ps
  | .beta a b => [a, b]
  | .gamma _ _ _ b => [b]
  | .delta _ _ b => [b]

/-- The variable a quantifier rule puts a witness for, and its type. -/
def binding? : Shape → Option (String × Ty)
  | .gamma _ x τ _ => some (x, τ)
  | .delta x τ _ => some (x, τ)
  | _ => none

end Shape

namespace Formula

/-- The shape of a formula. -/
def shape : Formula → Shape
  | .not (.not a) => .alpha [a]
  | .not (.or a b) => .alpha [.not a, .not b]
  | .not (.imp a b) => .alpha [a, .not b]
  | .not (.and a b) => .beta (.not a) (.not b)
  | .not (.ex x τ b) => .gamma false x τ (.not b)
  | .not (.all x τ b) => .delta x τ (.not b)
  | .and a b => .alpha [a, b]
  | .imp a b => .beta (.not a) b
  | .or a b => .beta a b
  | .all x τ b => .gamma true x τ b
  | .ex x τ b => .delta x τ b
  | _ => .literal

/-- The formulas directly inside a formula, negated where the formula negates them. -/
def pieces (f : Formula) : List Formula :=
  f.shape.pieces

/-- The variable for which expanding a formula puts a witness, and its type. -/
def binding? (f : Formula) : Option (String × Ty) :=
  f.shape.binding?

/-- What takes the place of a formula when it is expanded with the witness `w`: one list
for each branch. -/
def parts (f w : Formula) : List (List Formula) :=
  match f.shape with
  | .literal => []
  | .alpha ps => [ps]
  | .beta a b => [[a], [b]]
  | .gamma keep x _ b => [if keep then [f, b.subst x w] else [b.subst x w]]
  | .delta x _ b => [[b.subst x w]]

variable {f g w : Formula}

theorem match?_eq_none_iff : f.match? = none ↔ f.shape = .literal := by
  unfold match? shape
  split <;> simp_all

/-- The rule for a formula is the rule for its shape. -/
theorem match?_some {m : Match} (h : f.match? = some m) :
    m.formula = .formula f ∧ f.shape.move? = some m.move ∧
      f.shape.family? = some m.rule.family := by
  unfold match? at h
  split at h <;> simp at h <;> subst h <;> exact ⟨rfl, rfl, rfl⟩

/-- **A property that passes through negation, the connectives and the quantifiers passes
from a formula to its pieces.** -/
theorem of_mem_pieces {P : Formula → Prop} (hnot : ∀ a, P (.not a) ↔ P a)
    (hand : ∀ a b, P (.and a b) → P a ∧ P b) (hor : ∀ a b, P (.or a b) → P a ∧ P b)
    (himp : ∀ a b, P (.imp a b) → P a ∧ P b) (hquant : ∀ q x τ b, P (.quant q x τ b) → P b)
    (hf : P f) (hg : g ∈ f.pieces) : P g := by
  unfold pieces shape at hg
  split at hg <;> simp only [Shape.pieces, List.mem_cons, List.not_mem_nil, or_false] at hg
  · rw [hnot, hnot] at hf; rw [hg]; exact hf
  · have hab := hor _ _ ((hnot _).1 hf)
    rcases hg with rfl | rfl
    · exact (hnot _).2 hab.1
    · exact (hnot _).2 hab.2
  · have hab := himp _ _ ((hnot _).1 hf)
    rcases hg with rfl | rfl
    · exact hab.1
    · exact (hnot _).2 hab.2
  · have hab := hand _ _ ((hnot _).1 hf)
    rcases hg with rfl | rfl
    · exact (hnot _).2 hab.1
    · exact (hnot _).2 hab.2
  · rw [hg, hnot]; exact hquant _ _ _ _ ((hnot _).1 hf)
  · rw [hg, hnot]; exact hquant _ _ _ _ ((hnot _).1 hf)
  · have hab := hand _ _ hf
    rcases hg with rfl | rfl
    · exact hab.1
    · exact hab.2
  · have hab := himp _ _ hf
    rcases hg with rfl | rfl
    · exact (hnot _).2 hab.1
    · exact hab.2
  · have hab := hor _ _ hf
    rcases hg with rfl | rfl
    · exact hab.1
    · exact hab.2
  · rw [hg]; exact hquant _ _ _ _ hf
  · rw [hg]; exact hquant _ _ _ _ hf

/-- What takes the place of a formula is the formula itself, one of its pieces, or an
instance of one. -/
theorem mem_parts {ps : List Formula} (hps : ps ∈ f.parts w) (hg : g ∈ ps) :
    g = f ∨ (f.binding? = none ∧ g ∈ f.pieces) ∨
      ∃ x τ b, f.binding? = some (x, τ) ∧ b ∈ f.pieces ∧ g = b.subst x w := by
  unfold parts at hps
  unfold binding? pieces
  cases hs : f.shape with
  | literal => rw [hs] at hps; simp at hps
  | alpha qs =>
    rw [hs] at hps; simp only [List.mem_singleton] at hps; subst hps
    exact Or.inr (Or.inl ⟨rfl, hg⟩)
  | beta a b =>
    rw [hs] at hps; simp only [List.mem_cons, List.not_mem_nil, or_false] at hps
    right; left
    refine ⟨rfl, ?_⟩
    rcases hps with rfl | rfl <;> simp only [List.mem_singleton] at hg <;> simp [Shape.pieces, hg]
  | gamma keep x τ b =>
    rw [hs] at hps; simp only [List.mem_singleton] at hps
    have hg' : g = f ∨ g = b.subst x w := by
      cases keep <;> simp_all
    rcases hg' with h | h
    · exact Or.inl h
    · exact Or.inr (Or.inr ⟨x, τ, b, rfl, by simp [Shape.pieces], h⟩)
  | delta x τ b =>
    rw [hs] at hps; simp only [List.mem_singleton] at hps; subst hps
    exact Or.inr (Or.inr ⟨x, τ, b, rfl, by simp [Shape.pieces], by simpa using hg⟩)

end Formula

end Refutation
