import Refutation.Pattern.Lowering
import Refutation.Proofs.Formula.Types
import Refutation.Proofs.Pattern.Unification

/-!
# Unification without variables

Between patterns without variables there is nothing to bind: unification succeeds exactly
on equal patterns (`solve_isSome_iff`). A closed formula has such a pattern, and patterns
are equal exactly for formulas that differ at most in the types of symbols outside quantified
subformulas (`Formula.lower_eq_iff`). So **closed formulas unify only if they are equal up to
types** (`Formula.unifiesWith_iff`).
-/

namespace Refutation

/-- **Equations without variables can be solved exactly if their sides are equal.** -/
theorem solve_isSome_iff {eqs : List Equation} (hv : ∀ x, x ∉ Equation.vars eqs) :
    (solve eqs).isSome ↔ ∀ e ∈ eqs, e.1 = e.2 := by
  have hsides : Unifies .var eqs ↔ ∀ e ∈ eqs, e.1 = e.2 := by
    simp only [Unifies, Pattern.bind_var]
  rw [← hsides, Option.isSome_iff_exists]
  constructor
  · rintro ⟨new, hnew⟩
    have hsolved := solved_of_solve hnew
    -- there is no variable to bind
    have hnil : new = [] :=
      List.eq_nil_iff_forall_not_mem.2 fun b hb => hv b.1 (hsolved.mem_vars hb)
    subst hnil
    exact hsolved.unifies (s := []) (fun _ _ => rfl) fun x q hq => by cases hq
  · exact exists_solve

theorem unifiable_iff_eq {a b : Pattern} (ha : a.vars = []) (hb : b.vars = []) :
    unifiable a b ↔ a = b := by
  have hv : ∀ x, x ∉ Equation.vars [(a, b)] := by
    intro x hx
    simp [Equation.vars, ha, hb] at hx
  have h := solve_isSome_iff hv
  simp only [List.mem_singleton, forall_eq] at h
  simpa [unifiable, unify, Bindings.apply, Bindings.chase] using h

namespace Formula

variable {f g : Formula}

theorem lower_eq_atom {n : String} : f.lower = .atom n ↔ ∃ τ, f = .const n τ := by
  constructor
  · intro h
    cases f with
    | const m τ => exact ⟨τ, by simpa [lower] using h⟩
    | app f a =>
      unfold lower at h
      split at h <;> cases h
    | _ => cases h
  · rintro ⟨τ, rfl⟩
    rfl

theorem lower_app_const (n : String) (τ : Ty) (a : Formula) :
    (app (.const n τ) a).lower = .node (.fn n) [a.lower] := rfl

theorem lower_app (hf : ∀ n τ, f ≠ .const n τ) (a : Formula) :
    (app f a).lower = .node .app [f.lower, a.lower] := by
  rw [lower]
  split
  · rename_i n h
    obtain ⟨τ, rfl⟩ := lower_eq_atom.1 h
    exact absurd rfl (hf n τ)
  · rfl

/-- The variables of a pattern are free in its formula. -/
theorem vars_lower : ∀ x ∈ f.lower.vars, x ∈ f.freeVars := by
  induction f with
  | var n τ => simp [lower, Pattern.vars, freeVars]
  | const n τ => simp [lower, Pattern.vars]
  | app f a ihf iha =>
    intro x hx
    by_cases hf : ∃ n τ, f = .const n τ
    · obtain ⟨n, τ, rfl⟩ := hf
      rw [lower_app_const] at hx
      exact List.mem_append_right _ (iha x (by simpa [Pattern.vars] using hx))
    · rw [lower_app (fun n τ h => hf ⟨n, τ, h⟩)] at hx
      simp only [Pattern.vars, Pattern.varsList, List.append_nil, List.mem_append] at hx
      exact List.mem_append.2 (hx.imp (ihf x) (iha x))
  | not b ih =>
    intro x hx
    exact ih x (by simpa [lower, Pattern.vars] using hx)
  | binary op a b iha ihb =>
    intro x hx
    simp only [lower, Pattern.vars, Pattern.varsList, List.append_nil, List.mem_append] at hx
    exact List.mem_append.2 (hx.imp (iha x) (ihb x))
  | quant q n τ b ih => simp [lower, Pattern.vars]

theorem vars_lower_eq_nil (hf : f.freeVars = []) : f.lower.vars = [] := by
  refine List.eq_nil_iff_forall_not_mem.2 fun x hx => ?_
  have := vars_lower x hx
  rw [hf] at this; exact List.not_mem_nil this

/-- The pattern of an application tells its two sides. -/
theorem lower_app_inj {f' a a' : Formula} (h : (app f a).lower = (app f' a').lower) :
    f.lower = f'.lower ∧ a.lower = a'.lower := by
  by_cases hf : ∃ n τ, f = .const n τ <;> by_cases hf' : ∃ n τ, f' = .const n τ
  · obtain ⟨n, τ, rfl⟩ := hf
    obtain ⟨m, σ, rfl⟩ := hf'
    simpa [lower_app_const, lower] using h
  · obtain ⟨n, τ, rfl⟩ := hf
    rw [lower_app_const, lower_app fun m σ e => hf' ⟨m, σ, e⟩] at h
    simp at h
  · obtain ⟨m, σ, rfl⟩ := hf'
    rw [lower_app_const, lower_app fun n τ e => hf ⟨n, τ, e⟩] at h
    simp at h
  · rw [lower_app fun n τ e => hf ⟨n, τ, e⟩, lower_app fun m σ e => hf' ⟨m, σ, e⟩] at h
    simpa using h

/-- The pattern of an application is a function head, unlike that of other formulas. -/
theorem lower_app_eq_node (f a : Formula) : ∃ n args, (app f a).lower = .node (.fn n) args := by
  by_cases hf : ∃ n τ, f = .const n τ
  · obtain ⟨n, τ, rfl⟩ := hf
    exact ⟨n, _, lower_app_const n τ a⟩
  · exact ⟨"app", _, lower_app (fun n τ e => hf ⟨n, τ, e⟩) a⟩

theorem head_inj {op op' : Connective} (h : op.head = op'.head) : op = op' := by
  cases op <;> cases op' <;> simp_all [Connective.head]

/-- Formulas with one pattern have one surface. -/
theorem surface_eq_of_lower_eq (h : f.lower = g.lower) : f.surface = g.surface := by
  induction f generalizing g with
  | var n τ =>
    cases g with
    | var m σ => simp only [lower, Pattern.var.injEq] at h; rw [h]; rfl
    | app k a => obtain ⟨m, as, hm⟩ := lower_app_eq_node k a; rw [hm] at h; cases h
    | _ => cases h
  | const n τ =>
    cases g with
    | const m σ => simp only [lower, Pattern.atom.injEq] at h; rw [h]; rfl
    | app k a => obtain ⟨m, as, hm⟩ := lower_app_eq_node k a; rw [hm] at h; cases h
    | _ => cases h
  | app f a ihf iha =>
    obtain ⟨m, as, hm⟩ := lower_app_eq_node f a
    cases g with
    | app k b =>
      obtain ⟨hk, hb⟩ := lower_app_inj h
      rw [surface, surface, ihf hk, iha hb]
    | binary op b c => rw [hm] at h; cases op <;> cases h
    | _ => rw [hm] at h; cases h
  | not b ih =>
    cases g with
    | not c =>
      simp only [lower, Pattern.node.injEq, List.cons.injEq, and_true, true_and] at h
      rw [surface, surface, ih h]
    | app k a => obtain ⟨m, as, hm⟩ := lower_app_eq_node k a; rw [hm] at h; cases h
    | binary op b c => cases op <;> simp [lower, Connective.head] at h
    | _ => cases h
  | binary op a b iha ihb =>
    cases g with
    | binary op' c d =>
      simp only [lower, Pattern.node.injEq, List.cons.injEq, and_true] at h
      rw [surface, surface, head_inj h.1, iha h.2.1, ihb h.2.2]
    | app k c =>
      obtain ⟨m, as, hm⟩ := lower_app_eq_node k c
      rw [hm] at h; cases op <;> cases h
    | not c => cases op <;> simp [lower, Connective.head] at h
    | _ => cases h
  | quant q n τ b ih =>
    cases g with
    | quant q' m σ c =>
      simp only [lower, Pattern.sealed.injEq, Entry.formula.injEq] at h
      rw [h]
    | app k a => obtain ⟨m, as, hm⟩ := lower_app_eq_node k a; rw [hm] at h; cases h
    | _ => cases h

/-- The pattern of a formula can be read off its surface. -/
theorem lower_surface (f : Formula) : f.surface.lower = f.lower := by
  induction f with
  | var n τ => rfl
  | const n τ => rfl
  | app f a ihf iha =>
    by_cases hc : ∃ n τ, f = .const n τ
    · obtain ⟨n, τ, rfl⟩ := hc
      show Pattern.node (.fn n) [a.surface.lower] = Pattern.node (.fn n) [a.lower]
      rw [iha]
    · have hu : ∀ n τ, f.surface ≠ .const n τ := by
        intro n τ e
        cases f <;> first | exact hc ⟨_, _, rfl⟩ | cases e
      rw [surface, lower_app hu, lower_app fun n τ e => hc ⟨n, τ, e⟩, ihf, iha]
  | not b ih => rw [surface, lower, lower, ih]
  | binary op a b iha ihb => rw [surface, lower, lower, iha, ihb]
  | quant q n τ b ih => rfl

/-- **Formulas have one pattern exactly if they have one surface.** -/
theorem lower_eq_iff : f.lower = g.lower ↔ f.surface = g.surface := by
  refine ⟨surface_eq_of_lower_eq, fun h => ?_⟩
  rw [← lower_surface f, h, lower_surface]

/-- **Formulas with one pattern are equal up to types.** -/
theorem untyped_eq_of_lower_eq (h : f.lower = g.lower) : f.untyped = g.untyped := by
  rw [← untyped_surface f, lower_eq_iff.1 h, untyped_surface]

/-- Without quantifiers, types do not show in the pattern. -/
theorem lower_untyped (h : f.binders = []) : f.untyped.lower = f.lower := by
  rw [← surface_eq_untyped h, lower_surface]

/-- **Closed formulas unify exactly if their patterns are equal.** -/
theorem unifiesWith_iff (hf : f.freeVars = []) (hg : g.freeVars = []) :
    f.unifiesWith g ↔ f.lower = g.lower :=
  unifiable_iff_eq (vars_lower_eq_nil hf) (vars_lower_eq_nil hg)

end Formula

end Refutation
