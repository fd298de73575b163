import Refutation.Proofs.Formula.Shape

/-!
# Names in formulas

Which names a formula uses: for constants, for variables, for what its quantifiers bind.
Two fragments are told apart by what may occur: a ground formula has no variable and no
quantifier, and in a first-order formula only terms stand inside applications and
equations.

A witness takes the place of the bound variable and brings in its own name and nothing
else (`freeVars_subst_const`, `mem_constants_subst_const`, `binders_subst_const`).
-/

namespace Refutation.Formula

/-- The names of the constants, from left to right. -/
def constants : Formula → List String
  | .var _ _ => []
  | .const n _ => [n]
  | .app f a => f.constants ++ a.constants
  | .not b => b.constants
  | .binary _ a b => a.constants ++ b.constants
  | .quant _ _ _ b => b.constants

/-- The names of the variables, free or bound, from left to right. -/
def varNames : Formula → List String
  | .var n _ => [n]
  | .const _ _ => []
  | .app f a => f.varNames ++ a.varNames
  | .not b => b.varNames
  | .binary _ a b => a.varNames ++ b.varNames
  | .quant _ _ _ b => b.varNames

/-- The names bound by quantifiers, one for each quantifier, from left to right. -/
def binders : Formula → List String
  | .var _ _ => []
  | .const _ _ => []
  | .app f a => f.binders ++ a.binders
  | .not b => b.binders
  | .binary _ a b => a.binders ++ b.binders
  | .quant _ n _ b => n :: b.binders

/-- Whether an expression is built from variables and constants by application alone. -/
def isTerm : Formula → Bool
  | .var _ _ => true
  | .const _ _ => true
  | .app f a => f.isTerm && a.isTerm
  | _ => false

/-- Whether connectives, equations and quantifiers never occur inside an application or an
equation. -/
def isFirstOrder : Formula → Bool
  | .var _ _ => true
  | .const _ _ => true
  | .app f a => f.isTerm && a.isTerm
  | .not b => b.isFirstOrder
  | .binary .eq a b => a.isTerm && b.isTerm
  | .binary _ a b => a.isFirstOrder && b.isFirstOrder
  | .quant _ _ _ b => b.isFirstOrder

/-- Whether no variable and no quantifier occurs. -/
def isGround : Formula → Bool
  | .var _ _ => false
  | .const _ _ => true
  | .app f a => f.isGround && a.isGround
  | .not b => b.isGround
  | .binary _ a b => a.isGround && b.isGround
  | .quant _ _ _ _ => false

/-- Whether a formula is a constant, an application or an equation. -/
def isAtom : Formula → Bool
  | .const _ _ => true
  | .app _ _ => true
  | .eq _ _ => true
  | _ => false

variable {f g : Formula} {x c : String} {τ : Ty}

/-! ## Putting a constant for a variable -/

/-- A constant in place of a variable removes the variable and adds none. -/
theorem freeVars_subst_const (f : Formula) (x c : String) (τ : Ty) :
    (f.subst x (.const c τ)).freeVars = f.freeVars.filter (· ≠ x) := by
  induction f with
  | var n σ =>
    by_cases hn : n = x
    · simp [subst, freeVars, hn]
    · simp [subst, freeVars, hn]
  | const n σ => rfl
  | app f a ihf iha => simp only [subst, freeVars, ihf, iha, List.filter_append]
  | not b ih => simp only [subst, freeVars, ih]
  | binary op a b iha ihb => simp only [subst, freeVars, iha, ihb, List.filter_append]
  | quant q n σ b ih =>
    by_cases hn : n = x
    · subst hn
      simp [subst, freeVars, List.filter_filter]
    · simp only [subst, hn, if_false, freeVars, ih, List.filter_filter]
      exact List.filter_congr fun y _ => Bool.and_comm _ _

theorem mem_constants_subst_const {n : String} (h : n ∈ (f.subst x (.const c τ)).constants) :
    n = c ∨ n ∈ f.constants := by
  induction f with
  | var m σ =>
    by_cases hm : m = x
    · simp [subst, hm, constants] at h; exact Or.inl h
    · simp [subst, hm, constants] at h
  | const m σ => exact Or.inr h
  | app f a ihf iha =>
    simp only [subst, constants, List.mem_append] at h ⊢
    rcases h with h | h
    · exact (ihf h).imp_right Or.inl
    · exact (iha h).imp_right Or.inr
  | not b ih => exact ih h
  | binary op a b iha ihb =>
    simp only [subst, constants, List.mem_append] at h ⊢
    rcases h with h | h
    · exact (iha h).imp_right Or.inl
    · exact (ihb h).imp_right Or.inr
  | quant q m σ b ih =>
    by_cases hm : m = x
    · simp only [subst, hm, if_true] at h; exact Or.inr h
    · simp only [subst, hm, if_false] at h; exact ih h

theorem mem_varNames_subst_const {n : String} (h : n ∈ (f.subst x (.const c τ)).varNames) :
    n ∈ f.varNames := by
  induction f with
  | var m σ =>
    by_cases hm : m = x
    · simp [subst, hm, varNames] at h
    · simpa [subst, hm] using h
  | const m σ => exact h
  | app f a ihf iha =>
    simp only [subst, varNames, List.mem_append] at h ⊢
    exact h.imp ihf iha
  | not b ih => exact ih h
  | binary op a b iha ihb =>
    simp only [subst, varNames, List.mem_append] at h ⊢
    exact h.imp iha ihb
  | quant q m σ b ih =>
    by_cases hm : m = x
    · simpa only [subst, hm, if_true] using h
    · simp only [subst, hm, if_false] at h; exact ih h

theorem binders_subst_const (f : Formula) (x c : String) (τ : Ty) :
    (f.subst x (.const c τ)).binders = f.binders := by
  induction f with
  | var n σ => by_cases hn : n = x <;> simp [subst, hn, binders]
  | const n σ => rfl
  | app f a ihf iha => simp only [subst, binders, ihf, iha]
  | not b ih => simp only [subst, binders, ih]
  | binary op a b iha ihb => simp only [subst, binders, iha, ihb]
  | quant q n σ b ih => by_cases hn : n = x <;> simp [subst, hn, binders, ih]

theorem isTerm_subst_const (f : Formula) (x c : String) (τ : Ty) :
    (f.subst x (.const c τ)).isTerm = f.isTerm := by
  induction f with
  | var n σ => by_cases hn : n = x <;> simp [subst, hn, isTerm]
  | const n σ => rfl
  | app f a ihf iha => simp only [subst, isTerm, ihf, iha]
  | not b ih => rfl
  | binary op a b iha ihb => rfl
  | quant q n σ b ih => by_cases hn : n = x <;> simp [subst, hn, isTerm]

theorem isFirstOrder_subst_const (f : Formula) (x c : String) (τ : Ty) :
    (f.subst x (.const c τ)).isFirstOrder = f.isFirstOrder := by
  induction f with
  | var n σ => by_cases hn : n = x <;> simp [subst, hn, isFirstOrder]
  | const n σ => rfl
  | app f a ihf iha => simp only [subst, isFirstOrder, isTerm_subst_const]
  | not b ih => simp only [subst, isFirstOrder, ih]
  | binary op a b iha ihb =>
    cases op <;> simp only [subst, isFirstOrder, iha, ihb, isTerm_subst_const]
  | quant q n σ b ih => by_cases hn : n = x <;> simp [subst, hn, isFirstOrder, ih]

/-! ## Names in pieces -/

theorem constants_of_mem_pieces (h : g ∈ f.pieces) : g.constants ⊆ f.constants := by
  refine of_mem_pieces (P := fun k => k.constants ⊆ f.constants) (fun a => Iff.rfl) ?_ ?_ ?_
    (fun _ _ _ _ hb => hb) (List.Subset.refl _) h <;>
  exact fun a b hab => ⟨fun _ hy => hab (List.mem_append_left _ hy),
    fun _ hy => hab (List.mem_append_right _ hy)⟩

theorem varNames_of_mem_pieces (h : g ∈ f.pieces) : g.varNames ⊆ f.varNames := by
  refine of_mem_pieces (P := fun k => k.varNames ⊆ f.varNames) (fun a => Iff.rfl) ?_ ?_ ?_
    (fun _ _ _ _ hb => hb) (List.Subset.refl _) h <;>
  exact fun a b hab => ⟨fun _ hy => hab (List.mem_append_left _ hy),
    fun _ hy => hab (List.mem_append_right _ hy)⟩

theorem binders_of_mem_pieces (h : g ∈ f.pieces) : g.binders ⊆ f.binders := by
  refine of_mem_pieces (P := fun k => k.binders ⊆ f.binders) (fun a => Iff.rfl) ?_ ?_ ?_
    (fun _ _ _ _ hb => fun _ hy => hb (List.mem_cons_of_mem _ hy)) (List.Subset.refl _) h <;>
  exact fun a b hab => ⟨fun _ hy => hab (List.mem_append_left _ hy),
    fun _ hy => hab (List.mem_append_right _ hy)⟩

theorem isFirstOrder_of_mem_pieces (hf : f.isFirstOrder) (h : g ∈ f.pieces) : g.isFirstOrder := by
  refine of_mem_pieces (P := fun k => k.isFirstOrder = true) (fun a => Iff.rfl) ?_ ?_ ?_
    (fun _ _ _ _ hb => hb) hf h <;>
  exact fun a b hab => by simpa [isFirstOrder] using hab

theorem isGround_of_mem_pieces (hf : f.isGround) (h : g ∈ f.pieces) : g.isGround := by
  refine of_mem_pieces (P := fun k => k.isGround = true) (fun a => Iff.rfl) ?_ ?_ ?_
    (fun q x τ b hb => by simp [isGround] at hb) hf h <;>
  exact fun a b hab => by simpa [isGround] using hab

/-- A variable free in a piece is free in the formula, or the one the formula binds. -/
theorem freeVars_of_mem_pieces {y : String} (h : g ∈ f.pieces) (hy : y ∈ g.freeVars) :
    y ∈ f.freeVars ∨ ∃ σ, f.binding? = some (y, σ) := by
  unfold pieces shape at h
  unfold binding? shape
  split at h <;> simp only [Shape.pieces, List.mem_cons, List.not_mem_nil, or_false] at h
  case h_1 => subst h; exact Or.inl hy
  case h_5 x σ b | h_6 x σ b | h_10 x σ b | h_11 x σ b =>
    -- the body of a quantifier: its free variables but the bound one
    subst h
    by_cases hx : y = x
    · exact Or.inr ⟨σ, by rw [hx]; rfl⟩
    · exact Or.inl (List.mem_filter.2 ⟨hy, by simpa using hx⟩)
  all_goals
    left
    simp only [freeVars, List.mem_append]
    rcases h with rfl | rfl
    · exact Or.inl hy
    · exact Or.inr hy

theorem freeVars_of_isGround (h : f.isGround) : f.freeVars = [] := by
  induction f with
  | var n σ => simp [isGround] at h
  | const n σ => rfl
  | app f a ihf iha =>
    simp only [isGround, Bool.and_eq_true] at h
    rw [freeVars, ihf h.1, iha h.2]; rfl
  | not b ih => exact ih h
  | binary op a b iha ihb =>
    simp only [isGround, Bool.and_eq_true] at h
    rw [freeVars, iha h.1, ihb h.2]; rfl
  | quant q n σ b ih => simp [isGround] at h

/-- A ground formula binds nothing. -/
theorem binding?_of_isGround (h : f.isGround) : f.binding? = none := by
  unfold binding? shape
  split <;> simp_all [isGround, Shape.binding?]

/-! ## Atoms -/

/-- A closed formula without a rule is an atom or the negation of one. -/
theorem isAtom_of_match?_none (hc : f.freeVars = []) (hm : f.match? = none) :
    f.isAtom ∨ ∃ a, f = .not a ∧ a.isAtom := by
  cases f with
  | var n τ => cases hc
  | not a =>
    refine Or.inr ⟨a, rfl, ?_⟩
    cases a with
    | var n τ => cases hc
    | binary op b d => cases op <;> first | rfl | cases hm
    | quant q n τ b => cases q <;> cases hm
    | not b => cases hm
    | _ => rfl
  | binary op a b => cases op <;> first | exact Or.inl rfl | cases hm
  | quant q n τ b => cases q <;> cases hm
  | _ => exact Or.inl rfl

theorem isNot_of_isAtom (h : f.isAtom) : f.isNot = false := by
  cases f with
  | not a => cases h
  | _ => rfl

theorem binders_of_isTerm (h : f.isTerm) : f.binders = [] := by
  induction f with
  | app f a ihf iha =>
    simp only [isTerm, Bool.and_eq_true] at h
    rw [binders, ihf h.1, iha h.2]; rfl
  | var n τ => rfl
  | const n τ => rfl
  | _ => cases h

theorem binders_of_isGround (h : f.isGround) : f.binders = [] := by
  induction f with
  | app k a ihk iha =>
    simp only [isGround, Bool.and_eq_true] at h
    rw [binders, ihk h.1, iha h.2]; rfl
  | not b ih => exact ih h
  | binary op a b iha ihb =>
    simp only [isGround, Bool.and_eq_true] at h
    rw [binders, iha h.1, ihb h.2]; rfl
  | quant q n τ b => cases h
  | _ => rfl

/-- The sides of a first-order atom are terms, so nothing in it is bound. -/
theorem binders_of_isAtom (ha : f.isAtom) (hf : f.isFirstOrder) : f.binders = [] := by
  cases f with
  | const n τ => rfl
  | app k a =>
    simp only [isFirstOrder, Bool.and_eq_true] at hf
    rw [binders, binders_of_isTerm hf.1, binders_of_isTerm hf.2]; rfl
  | binary op a b =>
    cases op with
    | eq =>
      simp only [isFirstOrder, Bool.and_eq_true] at hf
      rw [binders, binders_of_isTerm hf.1, binders_of_isTerm hf.2]; rfl
    | _ => cases ha
  | _ => cases ha

/-- What does not depend on an outer negation holds of the negation of a formula too. -/
theorem negate_iff {Q : Formula → Prop} (h : ∀ g, Q (.not g) ↔ Q g) (f : Formula) :
    Q f.negate ↔ Q f := by
  cases f with
  | not a => exact (h a).symm
  | _ => exact h _

end Refutation.Formula
