import Refutation.Proofs.Formula.Spelling
import Refutation.Proofs.Pattern.Lowering

/-!
# Patterns raised to formulas

An application is lowered in two ways: with a constant as its function, to a head with one argument
that has the name of the constant, and otherwise to the head `app` with two arguments. So a head
named `app` is told by the number of its arguments, also where `app` is the name of a constant, and
raising a pattern that was lowered gives back the formula, up to types. `Formula.retyped` says which
types it has then.

* `Formula.raise_lower`: **the pattern of a formula is raised to the formula with these types.**
* `Formula.raise_lower_keeps`: so neither its text nor its pattern changes.
-/

namespace Refutation

/-- Patterns that can be raised one by one can be raised together. -/
theorem Pattern.raiseList_eq_ok {ps : List Pattern} {fs : List Formula}
    (h : List.Forall₂ (fun p f => p.raise = .ok f) ps fs) : raiseList ps = .ok fs := by
  induction h with
  | nil => rfl
  | cons hp _ ih => rw [raiseList, hp, ih]

namespace Formula

/-- The formula with the types that raising gives its symbols outside quantified subformulas:
functions of individuals to constants that are applied, individuals to all others. Quantified
subformulas stay as they are. -/
def retyped : Formula → Formula
  | .var n _ => .var n .individual
  | .const n _ => .const n .individual
  | .app (.const n _) a => .app (.const n (.fn .individual .individual)) a.retyped
  | .app f a => .app f.retyped a.retyped
  | .not b => .not b.retyped
  | .binary op a b => .binary op a.retyped b.retyped
  | .quant q n τ b => .quant q n τ b

variable {f : Formula}

theorem retyped_app (hf : ∀ n τ, f ≠ .const n τ) (a : Formula) :
    (app f a).retyped = .app f.retyped a.retyped := by
  cases f with
  | const n τ => exact absurd rfl (hf n τ)
  | _ => rfl

/-- Raising changes the types of symbols only. -/
theorem surface_retyped (f : Formula) : f.retyped.surface = f.surface := by
  induction f with
  | app f a ihf iha =>
    by_cases hc : ∃ n τ, f = .const n τ
    · obtain ⟨n, τ, rfl⟩ := hc
      rw [retyped, surface, surface, iha]; rfl
    · rw [retyped_app fun n τ e => hc ⟨n, τ, e⟩, surface, surface, ihf, iha]
  | not b ih => rw [retyped, surface, surface, ih]
  | binary op a b iha ihb => rw [retyped, surface, surface, iha, ihb]
  | _ => rfl

theorem spelled_surface (f : Formula) : f.surface.spelled = f.spelled := by
  induction f with
  | app f a ihf iha => rw [surface, spelled, spelled, ihf, iha]
  | not b ih => rw [surface, spelled, spelled, ih]
  | binary op a b iha ihb => rw [surface, spelled, spelled, iha, ihb]
  | _ => rfl

/-- **The pattern of a formula is raised to the formula with these types.** -/
theorem raise_lower (f : Formula) : f.lower.raise = .ok f.retyped := by
  have hone : ∀ {a : Formula}, a.lower.raise = .ok a.retyped →
      Pattern.raiseList [a.lower] = .ok [a.retyped] :=
    fun ha => Pattern.raiseList_eq_ok (.cons ha .nil)
  have htwo : ∀ {a b : Formula}, a.lower.raise = .ok a.retyped → b.lower.raise = .ok b.retyped →
      Pattern.raiseList [a.lower, b.lower] = .ok [a.retyped, b.retyped] :=
    fun ha hb => Pattern.raiseList_eq_ok (.cons ha (.cons hb .nil))
  induction f with
  | var n τ => rfl
  | const n τ => rfl
  | app f a ihf iha =>
    by_cases hc : ∃ n τ, f = .const n τ
    · -- one argument, so the head is a constant even if it is named `app`
      obtain ⟨n, τ, rfl⟩ := hc
      rw [lower_app_const, Pattern.raise, hone iha]
      rfl
    · have hne : ∀ n τ, f ≠ .const n τ := fun n τ e => hc ⟨n, τ, e⟩
      rw [lower_app hne, Head.app, Pattern.raise, htwo ihf iha, retyped_app hne]
      rfl
  | not b ih =>
    rw [lower, Pattern.raise, hone ih]
    rfl
  | binary op a b iha ihb =>
    cases op <;> rw [lower, Connective.head, Pattern.raise, htwo iha ihb] <;> rfl
  | quant q n τ b ih => rfl

/-- **Lowering a formula and raising its pattern keeps everything but types**: the formula that comes
back has the types of `retyped`, the same text and the same pattern. -/
theorem raise_lower_keeps (f : Formula) :
    f.lower.raise = .ok f.retyped ∧ f.retyped.text = f.text ∧ f.retyped.lower = f.lower := by
  have hspelled : f.retyped.spelled = f.spelled := by
    rw [← spelled_surface, surface_retyped, spelled_surface]
  exact ⟨raise_lower f, text_eq_of_spelled_eq hspelled, lower_eq_iff.2 (surface_retyped f)⟩

/-- A constant named `app` that is applied to two arguments comes back as it was. -/
example : (Formula.app (.app (.const "app" .truth) (.var "x" .truth)) (.const "c" .truth)).lower.raise =
    .ok (.app (.app (.const "app" (.fn .individual .individual)) (.var "x" .individual))
      (.const "c" .individual)) := by
  decide

end Formula

end Refutation
