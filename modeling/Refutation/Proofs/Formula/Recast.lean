import Refutation.Proofs.Formula.Types

/-!
# Formulas with other constants and other types

`Formula.recast` gives other names to the constants of a formula and other types to all its
symbols and binders; variables keep their names. It looks at each symbol by itself, so it passes
through everything that an expansion does: the rule for a formula stays the same
(`rule_recast`), and so do the parts that take its place, each of them recast (`parts_recast`).
-/

namespace Refutation

/-- The formula with other names for its constants and other types. -/
def Formula.recast (ρ : String → String) (ε : Ty → Ty) : Formula → Formula
  | .var n τ => .var n (ε τ)
  | .const n τ => .const (ρ n) (ε τ)
  | .app f a => .app (f.recast ρ ε) (a.recast ρ ε)
  | .not b => .not (b.recast ρ ε)
  | .binary op a b => .binary op (a.recast ρ ε) (b.recast ρ ε)
  | .quant q n τ b => .quant q n (ε τ) (b.recast ρ ε)

/-- The shape with other names for its constants and other types. -/
def Shape.recast (ρ : String → String) (ε : Ty → Ty) : Shape → Shape
  | .literal => .literal
  | .alpha ps => .alpha (ps.map (Formula.recast ρ ε))
  | .beta a b => .beta (a.recast ρ ε) (b.recast ρ ε)
  | .gamma keep x τ b => .gamma keep x (ε τ) (b.recast ρ ε)
  | .delta x τ b => .delta x (ε τ) (b.recast ρ ε)

/-- The entry with its formula recast. -/
def Entry.recast (ρ : String → String) (ε : Ty → Ty) : Entry → Entry
  | .formula f => .formula (f.recast ρ ε)
  | .plain v => .plain v
  | .notPlain v => .notPlain v

namespace Formula

variable {ρ ρ' : String → String} {ε ε' : Ty → Ty} {f g w : Formula}

/-! ## Rules -/

theorem shape_recast (f : Formula) : (f.recast ρ ε).shape = f.shape.recast ρ ε := by
  cases f with
  | not a =>
    cases a with
    | binary op a b => cases op <;> rfl
    | quant q n τ b => cases q <;> rfl
    | _ => rfl
  | binary op a b => cases op <;> rfl
  | quant q n τ b => cases q <;> rfl
  | _ => rfl

/-- **The rule for a formula does not depend on its constants and types.** -/
theorem rule_recast (f : Formula) :
    (f.recast ρ ε).match?.map Match.rule = f.match?.map Match.rule := by
  cases f with
  | not a =>
    cases a with
    | binary op a b => cases op <;> rfl
    | quant q n τ b => cases q <;> rfl
    | _ => rfl
  | binary op a b => cases op <;> rfl
  | quant q n τ b => cases q <;> rfl
  | _ => rfl

theorem match?_recast_eq_none_iff : (f.recast ρ ε).match? = none ↔ f.match? = none := by
  rw [← Option.map_eq_none_iff (f := Match.rule), rule_recast, Option.map_eq_none_iff]

theorem binding?_recast (f : Formula) :
    (f.recast ρ ε).binding? = f.binding?.map fun b => (b.1, ε b.2) := by
  unfold binding?
  rw [shape_recast]
  cases f.shape <;> rfl

theorem subst_recast (f : Formula) (x : String) (w : Formula) :
    (f.subst x w).recast ρ ε = (f.recast ρ ε).subst x (w.recast ρ ε) := by
  induction f with
  | var n τ =>
    by_cases hn : n = x
    · simp only [subst, recast, hn, if_true]
    · simp only [subst, recast, hn, if_false]
  | const n τ => rfl
  | app f a ihf iha => simp only [subst, recast, ihf, iha]
  | not b ih => simp only [subst, recast, ih]
  | binary op a b iha ihb => simp only [subst, recast, iha, ihb]
  | quant q n τ b ih =>
    by_cases hn : n = x
    · simp only [subst, recast, hn, if_true]
    · simp only [subst, recast, hn, if_false, ih]

/-- **What takes the place of a formula is recast with it.** -/
theorem parts_recast (f w : Formula) :
    (f.recast ρ ε).parts (w.recast ρ ε) = (f.parts w).map (List.map (recast ρ ε)) := by
  unfold parts
  rw [shape_recast]
  cases f.shape with
  | literal => rfl
  | alpha ps => rfl
  | beta a b => rfl
  | gamma keep x τ b => cases keep <;> simp [Shape.recast, subst_recast]
  | delta x τ b => simp [Shape.recast, subst_recast]

theorem isNot_recast (f : Formula) : (f.recast ρ ε).isNot = f.isNot := by
  cases f <;> rfl

theorem negate_recast (f : Formula) : (f.recast ρ ε).negate = f.negate.recast ρ ε := by
  cases f <;> rfl

/-! ## Names -/

theorem constants_recast (f : Formula) : (f.recast ρ ε).constants = f.constants.map ρ := by
  induction f with
  | app f a ihf iha => simp only [recast, constants, ihf, iha, List.map_append]
  | not b ih => exact ih
  | binary op a b iha ihb => simp only [recast, constants, iha, ihb, List.map_append]
  | quant q n τ b ih => exact ih
  | _ => rfl

theorem recast_recast (f : Formula) :
    (f.recast ρ ε).recast ρ' ε' = f.recast (fun n => ρ' (ρ n)) fun τ => ε' (ε τ) := by
  induction f with
  | app f a ihf iha => simp only [recast, ihf, iha]
  | not b ih => simp only [recast, ih]
  | binary op a b iha ihb => simp only [recast, iha, ihb]
  | quant q n τ b ih => simp only [recast, ih]
  | _ => rfl

/-- Only the names of the constants that occur count. -/
theorem recast_congr (h : ∀ n ∈ f.constants, ρ n = ρ' n) : f.recast ρ ε = f.recast ρ' ε := by
  induction f with
  | var n τ => rfl
  | const n τ => rw [recast, recast, h n List.mem_cons_self]
  | app f a ihf iha =>
    rw [recast, recast, ihf fun n hn => h n (List.mem_append_left _ hn),
      iha fun n hn => h n (List.mem_append_right _ hn)]
  | not b ih => rw [recast, recast, ih h]
  | binary op a b iha ihb =>
    rw [recast, recast, iha fun n hn => h n (List.mem_append_left _ hn),
      ihb fun n hn => h n (List.mem_append_right _ hn)]
  | quant q n τ b ih => rw [recast, recast, ih h]

theorem recast_id (f : Formula) : f.recast id id = f := by
  induction f with
  | app f a ihf iha => rw [recast, ihf, iha]
  | not b ih => rw [recast, ih]
  | binary op a b iha ihb => rw [recast, iha, ihb]
  | quant q n τ b ih => rw [recast, ih]; rfl
  | _ => rfl

end Formula

end Refutation
