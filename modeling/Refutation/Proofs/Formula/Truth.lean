import Mathlib.Logic.Function.Basic
import Refutation.Proofs.Formula.Types

/-!
# Truth

An interpretation has a domain, an element for each constant, an operation for
application, a set of true elements and a relation for equality; types play no part. A
valuation gives an element to each variable.

* `Interpretation.Satisfies`: truth of a formula under a valuation.
* `Interpretation.satisfies_subst_const`: **putting a constant for a variable is putting
  its element for the variable's.**
* `Interpretation.satisfies_congr`: only the constants that occur matter.
* `Boolean`: a set of formulas that respects the connectives, as truth does.
-/

namespace Refutation

universe u

/-- What the symbols of formulas stand for, over a domain. -/
structure Interpretation (D : Type u) where
  /-- The element a constant names. -/
  const : String → D
  /-- One element applied to another. -/
  app : D → D → D
  /-- The elements that are true. -/
  holds : D → Prop
  /-- The elements that are related by `=`. -/
  eq : D → D → Prop

namespace Interpretation

variable {D : Type u}

/-- The element a term stands for. What is not a term has no value of its own and is read
as the constant without a name. -/
def value (M : Interpretation D) (v : String → D) : Formula → D
  | .var x _ => v x
  | .const c _ => M.const c
  | .app f a => M.app (M.value v f) (M.value v a)
  | _ => M.const ""

/-- Truth under a valuation. -/
def Satisfies (M : Interpretation D) (v : String → D) : Formula → Prop
  | .not a => ¬ M.Satisfies v a
  | .and a b => M.Satisfies v a ∧ M.Satisfies v b
  | .or a b => M.Satisfies v a ∨ M.Satisfies v b
  | .imp a b => M.Satisfies v a → M.Satisfies v b
  | .eq a b => M.eq (M.value v a) (M.value v b)
  | .all x _ b => ∀ d, M.Satisfies (Function.update v x d) b
  | .ex x _ b => ∃ d, M.Satisfies (Function.update v x d) b
  | .var x τ => M.holds (M.value v (.var x τ))
  | .const c τ => M.holds (M.value v (.const c τ))
  | .app f a => M.holds (M.value v (.app f a))

/-- Truth under every valuation. -/
def Models (M : Interpretation D) (f : Formula) : Prop :=
  ∀ v, M.Satisfies v f

/-- The same interpretation with other elements for the constants. -/
def withConsts (M : Interpretation D) (κ : String → D) : Interpretation D :=
  { M with const := κ }

variable {M : Interpretation D} {v : String → D} {f g : Formula}

/-! ## Types -/

theorem value_untyped (M : Interpretation D) (v : String → D) (f : Formula) :
    M.value v f.untyped = M.value v f := by
  induction f with
  | app f a ihf iha => simp only [Formula.untyped, value, ihf, iha]
  | _ => rfl

theorem satisfies_untyped (M : Interpretation D) (v : String → D) (f : Formula) :
    M.Satisfies v f.untyped ↔ M.Satisfies v f := by
  induction f generalizing v with
  | var x τ => rfl
  | const c τ => rfl
  | app f a =>
    show M.holds (M.value v (Formula.app f a).untyped) ↔ M.holds (M.value v (.app f a))
    rw [value_untyped]
  | not a ih => exact not_congr (ih v)
  | binary op a b iha ihb =>
    cases op with
    | and => exact and_congr (iha v) (ihb v)
    | or => exact or_congr (iha v) (ihb v)
    | imp => exact imp_congr (iha v) (ihb v)
    | eq =>
      show M.eq (M.value v a.untyped) (M.value v b.untyped) ↔ M.eq (M.value v a) (M.value v b)
      rw [value_untyped, value_untyped]
  | quant q x τ b ih =>
    cases q with
    | all => exact forall_congr' fun d => ih _
    | ex => exact exists_congr fun d => ih _

/-- Formulas that are equal up to types are true together. -/
theorem satisfies_of_untyped_eq (h : f.untyped = g.untyped) :
    M.Satisfies v f ↔ M.Satisfies v g := by
  rw [← satisfies_untyped M v f, h, satisfies_untyped]

/-! ## Constants -/

theorem value_congr (M : Interpretation D) {κ κ' : String → D} (v : String → D) {f : Formula}
    (h : ∀ n ∈ f.constants, κ n = κ' n) (h0 : κ "" = κ' "") :
    (M.withConsts κ).value v f = (M.withConsts κ').value v f := by
  induction f with
  | var x τ => rfl
  | const c τ => exact h c List.mem_cons_self
  | app f a ihf iha =>
    have hf := ihf fun n hn => h n (List.mem_append_left _ hn)
    have ha := iha fun n hn => h n (List.mem_append_right _ hn)
    show M.app _ _ = M.app _ _
    rw [hf, ha]
  | _ => exact h0

/-- **Truth depends only on the constants that occur.** -/
theorem satisfies_congr (M : Interpretation D) {κ κ' : String → D} {f : Formula}
    (v : String → D) (h : ∀ n ∈ f.constants, κ n = κ' n) (h0 : κ "" = κ' "") :
    (M.withConsts κ).Satisfies v f ↔ (M.withConsts κ').Satisfies v f := by
  induction f generalizing v with
  | var x τ => rfl
  | const c τ =>
    show M.holds (κ c) ↔ M.holds (κ' c)
    rw [h c List.mem_cons_self]
  | app f a =>
    show M.holds ((M.withConsts κ).value v (.app f a)) ↔
      M.holds ((M.withConsts κ').value v (.app f a))
    rw [value_congr M v h h0]
  | not a ih => exact not_congr (ih v h)
  | binary op a b iha ihb =>
    have hl : ∀ n ∈ a.constants, κ n = κ' n := fun n hn => h n (List.mem_append_left _ hn)
    have hr : ∀ n ∈ b.constants, κ n = κ' n := fun n hn => h n (List.mem_append_right _ hn)
    cases op with
    | and => exact and_congr (iha v hl) (ihb v hr)
    | or => exact or_congr (iha v hl) (ihb v hr)
    | imp => exact imp_congr (iha v hl) (ihb v hr)
    | eq =>
      show M.eq ((M.withConsts κ).value v a) ((M.withConsts κ).value v b) ↔
        M.eq ((M.withConsts κ').value v a) ((M.withConsts κ').value v b)
      rw [value_congr M v hl h0, value_congr M v hr h0]
  | quant q x τ b ih =>
    cases q with
    | all => exact forall_congr' fun d => ih _ h
    | ex => exact exists_congr fun d => ih _ h

/-! ## Substitution -/

theorem value_subst_const (M : Interpretation D) (v : String → D) (f : Formula) (x c : String)
    (τ : Ty) :
    M.value v (f.subst x (.const c τ)) = M.value (Function.update v x (M.const c)) f := by
  induction f with
  | var n σ =>
    by_cases hn : n = x
    · subst hn; simp [Formula.subst, value]
    · simp [Formula.subst, value, hn]
  | app f a ihf iha => simp only [Formula.subst, value, ihf, iha]
  | quant q n σ b => by_cases hn : n = x <;> simp [Formula.subst, value, hn]
  | _ => rfl

/-- **Putting a constant for a variable is giving the variable the constant's element.** -/
theorem satisfies_subst_const (M : Interpretation D) (v : String → D) (f : Formula)
    (x c : String) (τ : Ty) :
    M.Satisfies v (f.subst x (.const c τ)) ↔
      M.Satisfies (Function.update v x (M.const c)) f := by
  induction f generalizing v with
  | var n σ =>
    by_cases hn : n = x
    · subst hn; simp [Formula.subst, Satisfies, value]
    · simp [Formula.subst, Satisfies, value, hn]
  | const n σ => rfl
  | app f a =>
    show M.holds (M.value v ((Formula.app f a).subst x (.const c τ))) ↔ M.holds _
    rw [value_subst_const]
  | not a ih => exact not_congr (ih v)
  | binary op a b iha ihb =>
    cases op with
    | and => exact and_congr (iha v) (ihb v)
    | or => exact or_congr (iha v) (ihb v)
    | imp => exact imp_congr (iha v) (ihb v)
    | eq =>
      show M.eq (M.value v (a.subst x (.const c τ))) (M.value v (b.subst x (.const c τ))) ↔
        M.eq (M.value _ a) (M.value _ b)
      rw [value_subst_const, value_subst_const]
  | quant q n σ b ih =>
    by_cases hn : n = x
    · -- the quantifier binds the same name: its own element overrides the constant's
      subst hn
      cases q <;> simp [Formula.subst, Satisfies, Function.update_idem]
    · have key : ∀ d, M.Satisfies (Function.update v n d) (b.subst x (.const c τ)) ↔
          M.Satisfies (Function.update (Function.update v x (M.const c)) n d) b := by
        intro d
        rw [ih, Function.update_comm hn]
      rw [Formula.subst, if_neg hn]
      cases q with
      | all => exact forall_congr' key
      | ex => exact exists_congr key

end Interpretation

/-! ## Truth by shape -/

/-- A set of formulas that respects the connectives. -/
structure Boolean (S : Formula → Prop) : Prop where
  not : ∀ a, S (.not a) ↔ ¬ S a
  and : ∀ a b, S (.and a b) ↔ S a ∧ S b
  or : ∀ a b, S (.or a b) ↔ S a ∨ S b
  imp : ∀ a b, S (.imp a b) ↔ (S a → S b)

namespace Boolean

variable {S : Formula → Prop} {f : Formula}

/-- An alpha formula says that all its parts hold. -/
theorem alpha (hS : Boolean S) {ps : List Formula} (h : f.shape = .alpha ps) :
    S f ↔ ∀ g ∈ ps, S g := by
  unfold Formula.shape at h
  split at h <;> simp only [reduceCtorEq, Shape.alpha.injEq] at h <;> subst h <;>
    simp [hS.not, hS.and, hS.or, hS.imp]

/-- A beta formula says that one of two holds. -/
theorem beta (hS : Boolean S) {a b : Formula} (h : f.shape = .beta a b) :
    S f ↔ S a ∨ S b := by
  unfold Formula.shape at h
  split at h <;> simp only [reduceCtorEq, Shape.beta.injEq] at h <;> obtain ⟨rfl, rfl⟩ := h
  · rw [hS.not, hS.and, hS.not, hS.not, not_and_or]
  · rw [hS.imp, hS.not, imp_iff_not_or]
  · exact hS.or _ _

theorem negate (hS : Boolean S) (f : Formula) : S f.negate ↔ ¬ S f := by
  cases f with
  | not a => rw [hS.not, not_not]; rfl
  | _ => exact hS.not _

/-- Without a bound variable, a formula holds exactly if on some branch all of what takes
its place does. -/
theorem parts (hS : Boolean S) (hb : f.binding? = none) (hl : f.shape ≠ .literal) (w : Formula) :
    S f ↔ ∃ ps ∈ f.parts w, ∀ g ∈ ps, S g := by
  unfold Formula.parts
  unfold Formula.binding? at hb
  cases hs : f.shape with
  | literal => exact absurd hs hl
  | alpha ps => simp [hS.alpha hs]
  | beta a b => simp [hS.beta hs]
  | gamma keep x τ b => rw [hs] at hb; simp [Shape.binding?] at hb
  | delta x τ b => rw [hs] at hb; simp [Shape.binding?] at hb

end Boolean

namespace Interpretation

variable {D : Type u} {M : Interpretation D} {v : String → D} {f : Formula}

/-- Truth respects the connectives. -/
theorem boolean (M : Interpretation D) (v : String → D) : Boolean (M.Satisfies v) :=
  ⟨fun _ => Iff.rfl, fun _ _ => Iff.rfl, fun _ _ => Iff.rfl, fun _ _ => Iff.rfl⟩

/-- A gamma formula says that every instance of its body holds. -/
theorem satisfies_gamma {keep : Bool} {x : String} {τ : Ty} {b : Formula}
    (h : f.shape = .gamma keep x τ b) :
    M.Satisfies v f ↔ ∀ d, M.Satisfies (Function.update v x d) b := by
  unfold Formula.shape at h
  split at h <;> simp only [reduceCtorEq, Shape.gamma.injEq] at h <;> obtain ⟨-, rfl, -, rfl⟩ := h
  · simp only [Satisfies, not_exists]
  · rfl

/-- A delta formula says that some instance of its body holds. -/
theorem satisfies_delta {x : String} {τ : Ty} {b : Formula} (h : f.shape = .delta x τ b) :
    M.Satisfies v f ↔ ∃ d, M.Satisfies (Function.update v x d) b := by
  unfold Formula.shape at h
  split at h <;> simp only [reduceCtorEq, Shape.delta.injEq] at h <;> obtain ⟨rfl, -, rfl⟩ := h
  · simp only [Satisfies, not_forall]
  · rfl

end Interpretation

end Refutation
