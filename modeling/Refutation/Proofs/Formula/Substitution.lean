import Mathlib.Data.List.Basic
import Refutation.Proofs.Formula.Instance

/-!
# Free variables and substitution

Substitution renames nothing, so a free variable of the replacement can end up in the scope of a
quantifier that binds it (`Formula.captures`). Quantifiers matter only around the free occurrences
of the variable that is replaced: one that binds the variable itself stops the substitution, and one
without a free occurrence in its scope has nothing put below it.

* `Formula.freeVars_subst`: **without capture, the free variables are the old ones, from left to
  right, with those of the replacement in place of the variable.**
* `Formula.freeVars_after_subst`: the same for the sets of free variables.
* `Formula.subst_comm`: **independent substitutions commute**, since both orders put in the same
  formulas for the two variables at once.
-/

namespace Refutation.Formula

/-- Whether putting `r` for the variable `x` captures: some quantifier that has `x` free in its
scope binds a variable that is free in `r`. -/
def captures (f : Formula) (x : String) (r : Formula) : Bool :=
  match f with
  | .var _ _ => false
  | .const _ _ => false
  | .app f a => f.captures x r || a.captures x r
  | .not b => b.captures x r
  | .binary _ a b => a.captures x r || b.captures x r
  | .quant _ n _ b => n ≠ x && (b.occursFree x && r.occursFree n || b.captures x r)

variable {f r : Formula} {x y : String}

theorem occursFree_iff : f.occursFree x = true ↔ x ∈ f.freeVars :=
  List.contains_iff_mem

/-- A formula without free variables is never captured. -/
theorem captures_eq_false (x : String) {r : Formula} (hr : r.freeVars = []) (f : Formula) :
    f.captures x r = false := by
  have hnone : ∀ n, r.occursFree n = false := by
    intro n
    rw [occursFree, hr]
    rfl
  induction f with
  | var n τ => rfl
  | const n τ => rfl
  | app f a ihf iha => rw [captures, ihf, iha]; rfl
  | not b ih => exact ih
  | binary op a b iha ihb => rw [captures, iha, ihb]; rfl
  | quant q n τ b ih => simp [captures, hnone, ih]

/-- `y` put for `x` in `∃y. R(x, y)` is captured. -/
example : (Formula.ex "y" .individual (.app (.app (.const "R" .individual) (.var "x" .individual))
    (.var "y" .individual))).captures "x" (.var "y" .individual) = true := by decide

/-- What it takes not to capture below a quantifier that lets the substitution through. -/
theorem captures_quant_eq_false {q : Quantifier} {n : String} {τ : Ty} (hn : n ≠ x)
    (h : (quant q n τ f).captures x r = false) :
    (x ∈ f.freeVars → n ∉ r.freeVars) ∧ f.captures x r = false := by
  simp only [captures, hn, ne_eq, not_false_iff, decide_true, Bool.true_and,
    Bool.or_eq_false_iff, Bool.and_eq_false_iff] at h
  obtain ⟨hbound, hbody⟩ := h
  refine ⟨fun hx hr => ?_, hbody⟩
  rcases hbound with hb | hb
  · rw [occursFree_iff.2 hx] at hb; cases hb
  · rw [occursFree_iff.2 hr] at hb; cases hb

/-- What stands for a variable in the list of free variables when `r` is put for `x`. -/
def replaced (x : String) (r : Formula) (y : String) : List String :=
  if y = x then r.freeVars else [y]

theorem flatMap_replaced {l : List String} (hx : x ∉ l) : l.flatMap (replaced x r) = l := by
  have hsame : ∀ y ∈ l, replaced x r y = [y] := fun y hy => if_neg fun h : y = x => hx (h ▸ hy)
  rw [List.flatMap_congr hsame, List.flatMap_singleton']

/-- A bound name can be left out before or after, if the replacement does not have it free. -/
theorem filter_flatMap_replaced {n : String} {l : List String} (hn : n ≠ x)
    (hbound : x ∈ l → n ∉ r.freeVars) :
    (l.flatMap (replaced x r)).filter (· ≠ n) = (l.filter (· ≠ n)).flatMap (replaced x r) := by
  induction l with
  | nil => rfl
  | cons y l ih =>
    rw [List.flatMap_cons, List.filter_append, ih fun hx => hbound (List.mem_cons_of_mem _ hx)]
    by_cases hyx : y = x
    · have hr : ∀ z ∈ r.freeVars, z ≠ n := fun z hz e => hbound (hyx ▸ List.mem_cons_self) (e ▸ hz)
      have hkeep : r.freeVars.filter (· ≠ n) = r.freeVars :=
        List.filter_eq_self.2 fun z hz => decide_eq_true (hr z hz)
      have hyn : y ≠ n := fun e => hn (e.symm.trans hyx)
      have hcons : (y :: l).filter (· ≠ n) = y :: l.filter (· ≠ n) :=
        List.filter_cons_of_pos (by simpa using hyn)
      rw [hcons, List.flatMap_cons, replaced, if_pos hyx, hkeep]
    · rw [replaced, if_neg hyx]
      by_cases hyn : y = n
      · simp [hyn]
      · simp [hyn, replaced, hyx]

/-- **Without capture, the free variables are the old ones, from left to right, with those of the
replacement in place of the variable.** -/
theorem freeVars_subst (h : f.captures x r = false) :
    (f.subst x r).freeVars = f.freeVars.flatMap (replaced x r) := by
  induction f with
  | var n τ =>
    by_cases hn : n = x
    · simp [subst, freeVars, replaced, hn]
    · simp [subst, freeVars, replaced, hn]
  | const n τ => rfl
  | app f a ihf iha =>
    obtain ⟨hf, ha⟩ := Bool.or_eq_false_iff.1 h
    rw [subst, freeVars, freeVars, ihf hf, iha ha, List.flatMap_append]
  | not b ih => exact ih h
  | binary op a b iha ihb =>
    obtain ⟨ha, hb⟩ := Bool.or_eq_false_iff.1 h
    rw [subst, freeVars, freeVars, iha ha, ihb hb, List.flatMap_append]
  | quant q n τ b ih =>
    by_cases hn : n = x
    · -- the quantifier stops the substitution
      have hx : x ∉ (quant q n τ b).freeVars := by
        intro hx
        simpa [hn] using (List.mem_filter.1 hx).2
      rw [subst_of_not_free hx, flatMap_replaced hx]
    · obtain ⟨hbound, hbody⟩ := captures_quant_eq_false hn h
      rw [subst, if_neg hn, freeVars, freeVars, ih hbody, filter_flatMap_replaced hn hbound]

/-- **Free variables after substitution.** Where `x` is not free, nothing changes. Without capture,
and a constant is never captured, the free variables are the old ones but `x`, and those of the
replacement exactly if `x` was free. -/
theorem freeVars_after_subst (f : Formula) (x : String) (r : Formula) :
    (x ∉ f.freeVars → f.subst x r = f) ∧
    (f.captures x r = false → ∀ y, y ∈ (f.subst x r).freeVars ↔
      y ∈ f.freeVars ∧ y ≠ x ∨ x ∈ f.freeVars ∧ y ∈ r.freeVars) ∧
    ((∃ c τ, r = .const c τ) → f.captures x r = false) := by
  refine ⟨fun hx => subst_of_not_free hx r, fun h y => ?_, ?_⟩
  · rw [freeVars_subst h, List.mem_flatMap]
    constructor
    · rintro ⟨z, hz, hy⟩
      by_cases hzx : z = x
      · rw [replaced, if_pos hzx] at hy
        exact Or.inr ⟨hzx ▸ hz, hy⟩
      · rw [replaced, if_neg hzx, List.mem_singleton] at hy
        exact Or.inl ⟨hy ▸ hz, hy ▸ hzx⟩
    · rintro (⟨hy, hyx⟩ | ⟨hx, hy⟩)
      · exact ⟨y, hy, by rw [replaced, if_neg hyx]; exact List.mem_singleton_self y⟩
      · exact ⟨x, hx, by rw [replaced, if_pos rfl]; exact hy⟩
  · rintro ⟨c, τ, rfl⟩
    exact captures_eq_false x rfl f

/-- Put `g(z)` for `x` in `P(x) ∧ ((∀x. ∃z. R(x, z)) ∧ ∃y. R(x, y))`: `z` is bound only where `x` is
not free, and `x` is free where only `y` is bound, so nothing is captured. Put for `y`, which is free
nowhere, it changes nothing. -/
theorem freeVars_after_subst_shadowed :
    let R (a b : Formula) : Formula := .app (.app (.const "R" .individual) a) b
    let v (n : String) : Formula := .var n .individual
    let f : Formula := .and (.app (.const "P" .individual) (v "x")) (.and
      (.all "x" .individual (.ex "z" .individual (R (v "x") (v "z"))))
      (.ex "y" .individual (R (v "x") (v "y"))))
    let r : Formula := .app (.const "g" .individual) (v "z")
    "y" ∉ f.freeVars ∧ f.subst "y" r = f ∧ f.captures "x" r = false ∧
      (∀ y, y ∈ (f.subst "x" r).freeVars ↔
        y ∈ f.freeVars ∧ y ≠ "x" ∨ "x" ∈ f.freeVars ∧ y ∈ r.freeVars) ∧
      f.captures "x" (.const "c1" .individual) = false := by
  intro R v f r
  have hy : "y" ∉ f.freeVars := by decide
  have hx : f.captures "x" r = false := by decide
  exact ⟨hy, (freeVars_after_subst f "y" r).1 hy, hx, (freeVars_after_subst f "x" r).2.1 hx,
    (freeVars_after_subst f "x" (.const "c1" .individual)).2.2 ⟨_, _, rfl⟩⟩

/-! ## Two substitutions -/

/-- **Two substitutions, one after the other, are one for both variables**, if the second variable
is not free in what is put for the first. -/
theorem subst_subst (hxy : x ≠ y) (hr : y ∉ r.freeVars) (s f : Formula) :
    (f.subst x r).subst y s =
      f.instantiate (Function.update (Function.update (fun _ => none) x (some r)) y (some s)) := by
  have hfree : ∀ n v, Function.update (fun _ => none) x (some r) n = some v → y ∉ v.freeVars := by
    intro n v hv
    by_cases hn : n = x
    · rw [hn, Function.update_self] at hv
      exact Option.some.inj hv ▸ hr
    · rw [Function.update_of_ne hn] at hv
      cases hv
  rw [← instantiate_single x r f, subst_instantiate (Function.update_of_ne hxy.symm ..) hfree]

/-- **Independent substitutions commute**, whatever quantifiers stop them or capture what they put
in. -/
theorem subst_comm {s : Formula} (hxy : x ≠ y) (hr : y ∉ r.freeVars) (hs : x ∉ s.freeVars)
    (f : Formula) : (f.subst x r).subst y s = (f.subst y s).subst x r := by
  rw [subst_subst hxy hr, subst_subst hxy.symm hs, Function.update_comm hxy]

/-- In `(∃x. R(x, y)) ∧ ∀z. R(x, y)` the first quantifier stops one of two substitutions and the
second one captures what both put in. -/
theorem subst_comm_captured :
    let R (a b : Formula) : Formula := .app (.app (.const "R" .individual) a) b
    let v (n : String) : Formula := .var n .individual
    let f : Formula := .and (.ex "x" .individual (R (v "x") (v "y")))
      (.all "z" .individual (R (v "x") (v "y")))
    let s : Formula := .app (.const "g" .individual) (v "z")
    "y" ∉ (v "z").freeVars ∧ "x" ∉ s.freeVars ∧
      f.captures "x" (v "z") = true ∧ f.captures "y" s = true ∧
      (f.subst "x" (v "z")).subst "y" s = (f.subst "y" s).subst "x" (v "z") := by
  intro R v f s
  have hr : "y" ∉ (v "z").freeVars := by decide
  have hs : "x" ∉ s.freeVars := by decide
  exact ⟨hr, hs, by decide, by decide, subst_comm (by decide) hr hs f⟩

end Refutation.Formula
