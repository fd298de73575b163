import Mathlib.Data.List.Basic
import Refutation.Proofs.Formula.Instance

/-!
# Subformulas and their scopes

A subformula is taken with its scope: the names that quantifiers bind around it. Each occurrence
counts by itself, and the inside of an application or an equation does not count.

* `Formula.mem_subformulasIn_trans`: subformulas of subformulas are subformulas.
* `Formula.pieced_of_mem_pieces`: **the pieces of a formula, or of its negation, are subformulas or
  their negations**, in the scope of the name that is bound.
-/

namespace Refutation

/-- A formula inside another, and the names bound around it there, the innermost first. -/
structure Subformula where
  formula : Formula
  scope : List String
  deriving DecidableEq, Repr

namespace Formula

/-- The subformulas of a formula that stands in a scope, one for each occurrence. -/
def subformulasIn (scope : List String) : Formula → List Subformula
  | .not b => ⟨.not b, scope⟩ :: b.subformulasIn scope
  | .binary .eq a b => [⟨.eq a b, scope⟩]
  | .binary op a b =>
    ⟨.binary op a b, scope⟩ :: (a.subformulasIn scope ++ b.subformulasIn scope)
  | .quant q x τ b => ⟨.quant q x τ b, scope⟩ :: b.subformulasIn (x :: scope)
  | f => [⟨f, scope⟩]

/-- The subformulas of a formula that stands by itself. -/
def subformulas (f : Formula) : List Subformula :=
  f.subformulasIn []

variable {f g k : Formula} {xs : List String} {s r : Subformula}

theorem subformulasIn_binary {op : Connective} (hop : op ≠ .eq) (a b : Formula) :
    (Formula.binary op a b).subformulasIn xs =
      ⟨.binary op a b, xs⟩ :: (a.subformulasIn xs ++ b.subformulasIn xs) := by
  cases op with
  | eq => exact absurd rfl hop
  | _ => rfl

theorem self_mem_subformulasIn (f : Formula) (xs : List String) : ⟨f, xs⟩ ∈ f.subformulasIn xs := by
  cases f with
  | binary op a b => cases op <;> exact List.mem_cons_self
  | _ => exact List.mem_cons_self

/-- **Subformulas of subformulas are subformulas.** -/
theorem mem_subformulasIn_trans (hs : s ∈ f.subformulasIn xs)
    (hr : r ∈ s.formula.subformulasIn s.scope) : r ∈ f.subformulasIn xs := by
  induction f generalizing xs with
  | not b ih =>
    rcases List.mem_cons.1 hs with rfl | hs
    · exact hr
    · exact List.mem_cons_of_mem _ (ih hs)
  | binary op a b iha ihb =>
    by_cases hop : op = .eq
    · subst hop
      obtain rfl := List.mem_singleton.1 hs
      exact hr
    · rw [subformulasIn_binary hop, List.mem_cons, List.mem_append] at hs
      rcases hs with rfl | hs | hs
      · exact hr
      · rw [subformulasIn_binary hop]
        exact List.mem_cons_of_mem _ (List.mem_append_left _ (iha hs))
      · rw [subformulasIn_binary hop]
        exact List.mem_cons_of_mem _ (List.mem_append_right _ (ihb hs))
  | quant q x τ b ih =>
    rcases List.mem_cons.1 hs with rfl | hs
    · exact hr
    · exact List.mem_cons_of_mem _ (ih hs)
  | _ =>
    obtain rfl := List.mem_singleton.1 hs
    exact hr

/-- What passes from an expression to those it is made of. -/
structure Inward (P : Formula → Prop) : Prop where
  app : ∀ {f a}, P (.app f a) → P f ∧ P a
  not : ∀ {b}, P (.not b) → P b
  binary : ∀ {op a b}, P (.binary op a b) → P a ∧ P b
  quant : ∀ {q x τ b}, P (.quant q x τ b) → P b

theorem Inward.of_mem_subformulasIn {P : Formula → Prop} (hP : Inward P) (hf : P f)
    (hs : s ∈ f.subformulasIn xs) : P s.formula := by
  induction f generalizing xs with
  | not b ih =>
    rcases List.mem_cons.1 hs with rfl | hs
    · exact hf
    · exact ih (hP.not hf) hs
  | binary op a b iha ihb =>
    by_cases hop : op = .eq
    · subst hop
      obtain rfl := List.mem_singleton.1 hs
      exact hf
    · rw [subformulasIn_binary hop, List.mem_cons, List.mem_append] at hs
      rcases hs with rfl | hs | hs
      · exact hf
      · exact iha (hP.binary hf).1 hs
      · exact ihb (hP.binary hf).2 hs
  | quant q x τ b ih =>
    rcases List.mem_cons.1 hs with rfl | hs
    · exact hf
    · exact ih (hP.quant hf) hs
  | _ =>
    obtain rfl := List.mem_singleton.1 hs
    exact hf

theorem inward_constants (R : String → Prop) : Inward fun f => ∀ c ∈ f.constants, R c where
  app h := List.forall_mem_append.1 h
  not h := h
  binary h := List.forall_mem_append.1 h
  quant h := h

theorem inward_varNames (R : String → Prop) : Inward fun f => ∀ x ∈ f.varNames, R x where
  app h := List.forall_mem_append.1 h
  not h := h
  binary h := List.forall_mem_append.1 h
  quant h := h

theorem inward_binders (R : String → Prop) : Inward fun f => ∀ x ∈ f.binders, R x where
  app h := List.forall_mem_append.1 h
  not h := h
  binary h := List.forall_mem_append.1 h
  quant h := (List.forall_mem_cons.1 h).2

/-- A subformula binds no names but those the formula binds. -/
theorem binders_of_mem_subformulasIn (hs : s ∈ f.subformulasIn xs) :
    s.formula.binders ⊆ f.binders :=
  (inward_binders (· ∈ f.binders)).of_mem_subformulasIn (fun _ hx => hx) hs

/-- A formula or its negation. -/
def SignedBy (f g : Formula) : Prop :=
  g = f ∨ g = .not f

theorem SignedBy.binders_eq (h : f.SignedBy g) : g.binders = f.binders := by
  rcases h with rfl | rfl <;> rfl

/-- The names bound around the pieces of a formula that stands in a scope. -/
def innerScope (f : Formula) (xs : List String) : List String :=
  (f.binding?.map Prod.fst).toList ++ xs

/-- The piece is a subformula or the negation of one, in the scope of the pieces of `g`. -/
def Pieced (f g k : Formula) (xs : List String) : Prop :=
  ∃ s ∈ f.subformulasIn xs, s.scope = g.innerScope xs ∧ s.formula.SignedBy k

theorem Pieced.binary {op : Connective} (hop : op ≠ .eq) {a b : Formula} (hb : g.binding? = none)
    (h : a.SignedBy k ∨ b.SignedBy k) : Pieced (.binary op a b) g k xs := by
  have hscope : xs = g.innerScope xs := by rw [innerScope, hb]; rfl
  unfold Pieced
  rw [subformulasIn_binary hop]
  rcases h with h | h
  · refine ⟨⟨a, xs⟩, List.mem_cons_of_mem _ ?_, hscope, h⟩
    exact List.mem_append_left _ (self_mem_subformulasIn a xs)
  · refine ⟨⟨b, xs⟩, List.mem_cons_of_mem _ ?_, hscope, h⟩
    exact List.mem_append_right _ (self_mem_subformulasIn b xs)

theorem Pieced.quant {q : Quantifier} {x : String} {τ : Ty} {b : Formula}
    (hb : g.binding? = some (x, τ)) (h : b.SignedBy k) : Pieced (.quant q x τ b) g k xs := by
  refine ⟨⟨b, x :: xs⟩, ?_, by rw [innerScope, hb]; rfl, h⟩
  exact List.mem_cons_of_mem _ (self_mem_subformulasIn b (x :: xs))

/-- The pieces of the negation of a formula: of a double negation, of one of the three connectives
or of one of the two quantifiers. -/
theorem pieced_of_mem_pieces_not (xs : List String) (hk : k ∈ (Formula.not f).pieces) :
    Pieced f (.not f) k xs := by
  cases f with
  | not a =>
    obtain rfl := List.mem_singleton.1 hk
    refine ⟨⟨k, xs⟩, ?_, rfl, Or.inl rfl⟩
    exact List.mem_cons_of_mem _ (self_mem_subformulasIn k xs)
  | binary op a b =>
    cases op with
    | and => exact .binary (by decide) rfl ((List.mem_pair.1 hk).imp Or.inr Or.inr)
    | or => exact .binary (by decide) rfl ((List.mem_pair.1 hk).imp Or.inr Or.inr)
    | imp => exact .binary (by decide) rfl ((List.mem_pair.1 hk).imp Or.inl Or.inr)
    | eq => cases hk
  | quant q x τ b =>
    cases q with
    | all => exact .quant rfl (Or.inr (List.mem_singleton.1 hk))
    | ex => exact .quant rfl (Or.inr (List.mem_singleton.1 hk))
  | _ => cases hk

/-- **The pieces of a formula, or of its negation, are subformulas or their negations**, whichever
of the eleven rules makes them. -/
theorem pieced_of_mem_pieces (xs : List String) (hg : f.SignedBy g) (hk : k ∈ g.pieces) :
    Pieced f g k xs := by
  rcases hg with rfl | rfl
  · cases g with
    | not a =>
      -- a negation is the negation of what it negates
      obtain ⟨s, hs, hscope, hsign⟩ := pieced_of_mem_pieces_not xs hk
      exact ⟨s, List.mem_cons_of_mem _ hs, hscope, hsign⟩
    | binary op a b =>
      cases op with
      | and => exact .binary (by decide) rfl ((List.mem_pair.1 hk).imp Or.inl Or.inl)
      | or => exact .binary (by decide) rfl ((List.mem_pair.1 hk).imp Or.inl Or.inl)
      | imp => exact .binary (by decide) rfl ((List.mem_pair.1 hk).imp Or.inr Or.inl)
      | eq => cases hk
    | quant q x τ b =>
      cases q with
      | all => exact .quant rfl (Or.inl (List.mem_singleton.1 hk))
      | ex => exact .quant rfl (Or.inl (List.mem_singleton.1 hk))
    | _ => cases hk
  · exact pieced_of_mem_pieces_not xs hk

end Formula

end Refutation
