import Refutation.Proofs.Formula.Names

/-!
# Formulas up to types

Types are carried along and never looked at. `Formula.untyped` gives all types of a
formula the same value, so two formulas are equal up to types when their untyped forms
are equal. `Formula.surface` does so only outside quantified subformulas.
-/

namespace Refutation

/-- The formula with every type forgotten. -/
def Formula.untyped : Formula → Formula
  | .var n _ => .var n .individual
  | .const n _ => .const n .individual
  | .app f a => .app f.untyped a.untyped
  | .not b => .not b.untyped
  | .binary op a b => .binary op a.untyped b.untyped
  | .quant q n _ b => .quant q n .individual b.untyped

/-- The formula with the types of its symbols forgotten, except within quantified
subformulas, which keep theirs. -/
def Formula.surface : Formula → Formula
  | .var n _ => .var n .individual
  | .const n _ => .const n .individual
  | .app f a => .app f.surface a.surface
  | .not b => .not b.surface
  | .binary op a b => .binary op a.surface b.surface
  | .quant q n τ b => .quant q n τ b

/-- The shape with every type forgotten. -/
def Shape.untyped : Shape → Shape
  | .literal => .literal
  | .alpha ps => .alpha (ps.map Formula.untyped)
  | .beta a b => .beta a.untyped b.untyped
  | .gamma keep x _ b => .gamma keep x .individual b.untyped
  | .delta x _ b => .delta x .individual b.untyped

namespace Formula

/-- Forgetting types keeps the shape. -/
theorem shape_untyped (f : Formula) : f.untyped.shape = f.shape.untyped := by
  cases f with
  | not a =>
    cases a with
    | binary op a b => cases op <;> rfl
    | quant q n τ b => cases q <;> rfl
    | _ => rfl
  | binary op a b => cases op <;> rfl
  | quant q n τ b => cases q <;> rfl
  | _ => rfl

theorem isNot_untyped (f : Formula) : f.untyped.isNot = f.isNot := by
  cases f <;> rfl

theorem binders_untyped (f : Formula) : f.untyped.binders = f.binders := by
  induction f with
  | app f a ihf iha => simp only [untyped, binders, ihf, iha]
  | not b ih => simp only [untyped, binders, ih]
  | binary op a b iha ihb => simp only [untyped, binders, iha, ihb]
  | quant q n τ b ih => simp only [untyped, binders, ih]
  | _ => rfl

theorem untyped_untyped (f : Formula) : f.untyped.untyped = f.untyped := by
  induction f with
  | app f a ihf iha => simp only [untyped, ihf, iha]
  | not b ih => simp only [untyped, ih]
  | binary op a b iha ihb => simp only [untyped, iha, ihb]
  | quant q n τ b ih => simp only [untyped, ih]
  | _ => rfl

theorem untyped_surface (f : Formula) : f.surface.untyped = f.untyped := by
  induction f with
  | app f a ihf iha => rw [surface, untyped, untyped, ihf, iha]
  | not b ih => rw [surface, untyped, untyped, ih]
  | binary op a b iha ihb => rw [surface, untyped, untyped, iha, ihb]
  | _ => rfl

/-- Without quantifiers, all of a formula is surface. -/
theorem surface_eq_untyped {f : Formula} (h : f.binders = []) : f.surface = f.untyped := by
  induction f with
  | app f a ihf iha =>
    obtain ⟨hf, ha⟩ := List.append_eq_nil_iff.1 h
    rw [surface, untyped, ihf hf, iha ha]
  | not b ih => rw [surface, untyped, ih h]
  | binary op a b iha ihb =>
    obtain ⟨ha, hb⟩ := List.append_eq_nil_iff.1 h
    rw [surface, untyped, iha ha, ihb hb]
  | quant q n τ b ih => cases h
  | _ => rfl

end Formula

end Refutation
