import Mathlib.Algebra.BigOperators.Group.List.Basic
import Mathlib.Algebra.Ring.Nat
import Refutation.Proofs.Formula.Shape

/-!
# The effort of expanding formulas

Branching copies all other formulas of a leaf, so the steps that a leaf can still cost
multiply: the effort of several formulas is the product of their efforts. An alpha formula
takes one step more than its parts together, a beta formula one more than its two sides
apart, an instantiated formula one more than its body. A universal formula stays where it
is, so its effort says nothing about its instances: it only counts the step that closes a
leaf.

* `sum_efforts_parts_lt`: **the branches of an expansion have less effort left together than
  the formula had**, universal formulas apart.
* `Formula.hasUniversal`: whether a universal quantifier stands at a position of some
  polarity; expansions make no new ones (`hasUniversal_of_mem_parts`).
-/

namespace Refutation

namespace Formula

/-- The effort of a formula, or of its negation. -/
def effortAt : Formula → (negated : Bool) → Nat
  | .not b, false => b.effortAt true
  | .not b, true => b.effortAt false + 1
  | .and a b, false => a.effortAt false * b.effortAt false + 1
  | .and a b, true => a.effortAt true + b.effortAt true + 1
  | .or a b, false => a.effortAt false + b.effortAt false + 1
  | .or a b, true => a.effortAt true * b.effortAt true + 1
  | .imp a b, false => a.effortAt true + b.effortAt false + 1
  | .imp a b, true => a.effortAt false * b.effortAt true + 1
  | .all _ _ _, false => 1
  | .all _ _ b, true => b.effortAt true + 1
  | .ex _ _ b, negated => b.effortAt negated + 1
  | _, _ => 1

/-- The effort of a formula. -/
def effort (f : Formula) : Nat :=
  f.effortAt false

/-- The effort of several formulas. -/
def efforts (fs : List Formula) : Nat :=
  (fs.map effort).prod

/-- Whether a universal quantifier stands at a position of this polarity; the insides of
applications and equations do not count. -/
def hasUniversal : Formula → (positive : Bool) → Bool
  | .not b, positive => b.hasUniversal !positive
  | .and a b, positive => a.hasUniversal positive || b.hasUniversal positive
  | .or a b, positive => a.hasUniversal positive || b.hasUniversal positive
  | .imp a b, positive => (a.hasUniversal !positive) || b.hasUniversal positive
  | .all _ _ b, positive => positive || b.hasUniversal positive
  | .ex _ _ b, positive => b.hasUniversal positive
  | _, _ => false

variable {f g w : Formula}

theorem effortAt_pos (f : Formula) (negated : Bool) : 0 < f.effortAt negated := by
  fun_induction effortAt f negated <;> omega

theorem effort_pos (f : Formula) : 0 < f.effort := effortAt_pos f false

theorem efforts_cons (f : Formula) (fs : List Formula) :
    efforts (f :: fs) = f.effort * efforts fs := by
  rw [efforts, List.map_cons, List.prod_cons]; rfl

theorem efforts_append (fs gs : List Formula) : efforts (fs ++ gs) = efforts fs * efforts gs := by
  rw [efforts, List.map_append, List.prod_append]; rfl

theorem efforts_singleton (f : Formula) : efforts [f] = f.effort := by
  rw [efforts, List.map_singleton, List.prod_singleton]

theorem efforts_pos (fs : List Formula) : 0 < efforts fs := by
  induction fs with
  | nil => exact Nat.one_pos
  | cons f fs ih => rw [efforts_cons]; exact Nat.mul_pos (effort_pos f) ih

/-- A witness in the place of a variable changes no effort. -/
theorem effortAt_subst_const (f : Formula) (x c : String) (τ : Ty) (negated : Bool) :
    (f.subst x (.const c τ)).effortAt negated = f.effortAt negated := by
  induction f generalizing negated with
  | var n σ => by_cases h : n = x <;> simp [subst, effortAt, h]
  | const n σ => rfl
  | app f a _ _ => rfl
  | not b ih => cases negated <;> simp [subst, effortAt, ih]
  | binary op a b iha ihb =>
    cases op <;> cases negated <;> simp [subst, effortAt, iha, ihb]
  | quant q n σ b ih =>
    by_cases h : n = x
    · rw [subst, if_pos h]
    · cases q <;> cases negated <;> simp [subst, effortAt, h, ih]

theorem effort_subst_const (f : Formula) (x c : String) (τ : Ty) :
    (f.subst x (.const c τ)).effort = f.effort :=
  effortAt_subst_const f x c τ false

end Formula

/-- The effort of a formula of this shape. -/
def Shape.effort : Shape → Nat
  | .literal => 1
  | .alpha ps => Formula.efforts ps + 1
  | .beta a b => a.effort + b.effort + 1
  | .gamma true _ _ _ => 1
  | .gamma false _ _ b => b.effort + 1
  | .delta _ _ b => b.effort + 1

namespace Formula

variable {f g w : Formula}

/-- The effort of a formula is that of its shape. -/
theorem effort_eq (f : Formula) : f.effort = f.shape.effort := by
  cases f with
  | not b =>
    cases b with
    | not a => simp [effort, effortAt, shape, Shape.effort, efforts]
    | binary op a b => cases op <;> simp [effort, effortAt, shape, Shape.effort, efforts]
    | quant q x τ b => cases q <;> rfl
    | _ => rfl
  | binary op a b => cases op <;> simp [effort, effortAt, shape, Shape.effort, efforts]
  | quant q x τ b => cases q <;> rfl
  | _ => rfl

/-- **The branches of an expansion have less effort left together than the formula had**,
universal formulas apart. -/
theorem sum_efforts_parts_lt (hw : f.binding? ≠ none → ∃ c τ, w = .const c τ)
    (hf : ∀ x τ b, f.shape ≠ .gamma true x τ b) :
    ((f.parts w).map efforts).sum < f.effort := by
  rw [effort_eq]
  unfold binding? at hw
  unfold parts
  cases hs : f.shape with
  | literal => exact Nat.one_pos
  | alpha ps => simp [Shape.effort]
  | beta a b =>
    simp only [List.map_cons, List.map_nil, List.sum_cons, List.sum_nil, efforts_singleton,
      Shape.effort]
    omega
  | gamma keep x τ b =>
    cases keep with
    | true => exact absurd hs (hf x τ b)
    | false =>
      obtain ⟨c, σ, rfl⟩ := hw (by rw [hs]; simp [Shape.binding?])
      simp [efforts_singleton, effort_subst_const, Shape.effort]
  | delta x τ b =>
    obtain ⟨c, σ, rfl⟩ := hw (by rw [hs]; simp [Shape.binding?])
    simp [efforts_singleton, effort_subst_const, Shape.effort]

/-! ## Universal quantifiers -/

theorem hasUniversal_subst_const (f : Formula) (x c : String) (τ : Ty) (positive : Bool) :
    (f.subst x (.const c τ)).hasUniversal positive = f.hasUniversal positive := by
  induction f generalizing positive with
  | var n σ => by_cases h : n = x <;> simp [subst, hasUniversal, h]
  | const n σ => rfl
  | app f a _ _ => rfl
  | not b ih => simp [subst, hasUniversal, ih]
  | binary op a b iha ihb => cases op <;> simp [subst, hasUniversal, iha, ihb]
  | quant q n σ b ih =>
    by_cases h : n = x
    · rw [subst, if_pos h]
    · cases q <;> simp [subst, hasUniversal, h, ih]

/-- A universal quantifier in a piece of a formula stands in the formula, with one polarity. -/
theorem hasUniversal_of_any_pieces (f : Formula) (h : f.pieces.any (hasUniversal · true) = true) :
    f.hasUniversal true = true := by
  revert h
  cases f with
  | not b =>
    cases b with
    | binary op a b => cases op <;> simp [pieces, shape, Shape.pieces, hasUniversal]
    | quant q x τ b => cases q <;> simp [pieces, shape, Shape.pieces, hasUniversal]
    | _ => simp [pieces, shape, Shape.pieces, hasUniversal]
  | binary op a b => cases op <;> simp [pieces, shape, Shape.pieces, hasUniversal]
  | quant q x τ b => cases q <;> simp [pieces, shape, Shape.pieces, hasUniversal]
  | _ => simp [pieces, shape, Shape.pieces]

/-- What takes the place of a formula has no universal quantifiers of positive polarity, if
the formula has none. -/
theorem hasUniversal_of_mem_parts {ps : List Formula} (hf : f.hasUniversal true = false)
    (hw : f.binding? ≠ none → ∃ c τ, w = .const c τ) (hps : ps ∈ f.parts w) (hg : g ∈ ps) :
    g.hasUniversal true = false := by
  have hpiece : ∀ b ∈ f.pieces, b.hasUniversal true = false := by
    intro b hb
    by_contra hne
    have hany : f.pieces.any (hasUniversal · true) = true :=
      List.any_eq_true.2 ⟨b, hb, by simpa using hne⟩
    rw [hasUniversal_of_any_pieces f hany] at hf
    cases hf
  rcases mem_parts hps hg with rfl | ⟨-, hgf⟩ | ⟨x, τ, b, hb, hbf, rfl⟩
  · exact hf
  · exact hpiece g hgf
  · obtain ⟨c, σ, rfl⟩ := hw (by rw [hb]; simp)
    rw [hasUniversal_subst_const]
    exact hpiece b hbf

end Formula

end Refutation
