import Refutation.Proofs.Attempt.Ledger
import Refutation.Proofs.Verdict

/-!
# Open branches as countermodels

An open leaf with nothing left to expand describes an interpretation: its elements are
expressions without types, and true is what the leaf affirms (`leafModel`). The leaf is not
contradictory, so what it negates is false there. Truth passes back up the branch through
every expansion but those of the gamma family, which look at one instance only; if there
was none on the branch, the negated goal is true.

* `exists_countermodel`: **an open leaf without expandable formulas, below no instantiated
  universal, refutes the goal in some interpretation.**
-/

namespace Refutation

open Interpretation

/-- The interpretation a leaf describes. -/
def leafModel (fs : List Formula) : Interpretation Formula where
  const c := .const c .individual
  app f a := .app f a
  holds t := ∃ b ∈ fs, b.untyped = t
  eq s t := ∃ b ∈ fs, b.untyped = .eq s t

section Leaf

variable {fs : List Formula} {f t : Formula} {v : String → Formula}

/-- A closed term stands for itself. -/
theorem value_leafModel (ht : t.isTerm) (hc : t.freeVars = []) :
    (leafModel fs).value v t = t.untyped := by
  induction t with
  | var n τ => cases hc
  | const n τ => rfl
  | app f a ihf iha =>
    simp only [Formula.isTerm, Bool.and_eq_true] at ht
    rw [Formula.freeVars, List.append_eq_nil_iff] at hc
    show Formula.app _ _ = _
    rw [ihf ht.1 hc.1, iha ht.2 hc.2, Formula.untyped]
  | _ => cases ht

/-- The atoms on the leaf are the true ones. -/
theorem satisfies_leafModel_iff (ha : f.isAtom) (hf : f.isFirstOrder) (hc : f.freeVars = []) :
    (leafModel fs).Satisfies v f ↔ ∃ b ∈ fs, b.untyped = f.untyped := by
  cases f with
  | const n τ => rfl
  | app k a =>
    show (∃ b ∈ fs, b.untyped = (leafModel fs).value v (.app k a)) ↔ _
    have ht : (Formula.app k a).isTerm := hf
    rw [value_leafModel ht hc]
  | binary op a b =>
    cases op with
    | eq =>
      simp only [Formula.isFirstOrder, Bool.and_eq_true] at hf
      rw [Formula.freeVars, List.append_eq_nil_iff] at hc
      show (∃ c ∈ fs, c.untyped = .eq ((leafModel fs).value v a) ((leafModel fs).value v b)) ↔ _
      rw [value_leafModel hf.1 hc.1, value_leafModel hf.2 hc.2, Formula.untyped]
    | _ => cases ha
  | _ => cases ha

/-- **What stands on an open leaf is true in the interpretation the leaf describes.** -/
theorem satisfies_leafModel (hfo : ∀ k ∈ fs, k.isFirstOrder) (hclosed : ∀ k ∈ fs, k.freeVars = [])
    (hc : contradiction? fs = none) (hm : ∀ k ∈ fs, k.match? = none) (hf : f ∈ fs) :
    (leafModel fs).Satisfies v f := by
  rcases Formula.isAtom_of_match?_none (hclosed f hf) (hm f hf) with ha | ⟨a, rfl, ha⟩
  · rw [satisfies_leafModel_iff ha (hfo f hf) (hclosed f hf)]
    exact ⟨f, hf, rfl⟩
  · have hafo : a.isFirstOrder := hfo (.not a) hf
    have hac : a.freeVars = [] := hclosed (.not a) hf
    show ¬ (leafModel fs).Satisfies v a
    rw [satisfies_leafModel_iff ha hafo hac]
    rintro ⟨b, hb, hba⟩
    exact untyped_ne_of_contradiction? hclosed hc hb hf (Formula.isNot_of_isAtom ha)
      (Formula.binders_of_isAtom ha hafo) hba

end Leaf

/-- Expansions keep formulas closed and first-order. -/
theorem kept_firstOrder (p : WitnessPolicy) :
    Kept p fun _ f => f.freeVars = [] ∧ f.isFirstOrder = true where
  mono _ hf := hf
  hereditary := by
    intro s hs f w path hf hw ps hps g hg
    refine ⟨freeVars_of_mem_parts hf.1 (hs.exists_const hw) hps hg, ?_⟩
    rcases Formula.mem_parts hps hg with rfl | ⟨-, hgf⟩ | ⟨x, τ, b, hb, hbf, rfl⟩
    · exact hf.2
    · exact Formula.isFirstOrder_of_mem_pieces hf.2 hgf
    · obtain ⟨c, σ, rfl⟩ := hs.exists_const hw (by rw [hb]; simp)
      rw [Formula.isFirstOrder_subst_const]
      exact Formula.isFirstOrder_of_mem_pieces hf.2 hbf

/-- Truth passes back from an expansion to the formula, the gamma family apart. -/
theorem satisfies_of_parts {D : Type} {M : Interpretation D} {v : String → D} {f w : Formula}
    {m : Match} (hm : f.match? = some m) (hgamma : m.rule.family ≠ .gamma)
    (hw : f.binding? ≠ none → ∃ c τ, w = .const c τ)
    (hS : ∃ ps ∈ f.parts w, ∀ g ∈ ps, M.Satisfies v g) : M.Satisfies v f := by
  obtain ⟨-, -, hfam⟩ := Formula.match?_some hm
  by_cases hb : f.binding? = none
  · refine ((M.boolean v).parts hb ?_ w).2 hS
    intro hl
    rw [hl] at hfam; cases hfam
  obtain ⟨c, τ, rfl⟩ := hw hb
  obtain ⟨ps, hps, hSp⟩ := hS
  unfold Formula.binding? at hb
  unfold Formula.parts at hps
  cases hs : f.shape with
  | literal => rw [hs] at hfam; cases hfam
  | alpha as => rw [hs] at hb; exact absurd rfl hb
  | beta a b => rw [hs] at hb; exact absurd rfl hb
  | gamma keep x σ b =>
    rw [hs] at hfam
    exact absurd (Option.some.inj hfam).symm hgamma
  | delta x σ b =>
    rw [hs, List.mem_singleton] at hps
    have hinst := hSp (b.subst x (.const c τ)) (by rw [hps]; exact List.mem_singleton_self _)
    rw [satisfies_subst_const] at hinst
    exact (satisfies_delta hs).2 ⟨_, hinst⟩

theorem Rule.eq_of_family_gamma {r : Rule} (h : r.family = .gamma) :
    r = .universal ∨ r = .negatedExistential := by
  cases r <;> simp [Rule.family] at h ⊢

/-- The negated goal is true in the interpretation that an open leaf describes. -/
theorem Attempt.Coherent.exists_falsifying {goal : Formula} {a : Attempt} (h : a.Coherent goal)
    (hclosed : goal.freeVars = []) (hfo : goal.isFirstOrder = true) {ls : List Label}
    {leaf : Label} (hb : a.root.HasBranch ls leaf) (ho : leaf.closed = false)
    (hm : ∀ e ∈ leaf.formulas, e.match? = none)
    (hlog : ∀ l ∈ ls, ∀ r, Logged a.log l.id r → r.family ≠ .gamma) :
    ∃ M : Interpretation Formula, ∀ v, ¬ M.Satisfies v goal := by
  have hkept := (kept_firstOrder a.policy).hereditary _ h.numbered
  have hroot : (rootLabel goal).All fun f => f.freeVars = [] ∧ f.isFirstOrder = true :=
    (rootLabel_all_iff fun _ => Iff.rfl).2 ⟨hclosed, hfo⟩
  have hleaf := hb.mem_leaves
  obtain ⟨fs, hset, hc⟩ := h.grown.settled_of_open hleaf ho
  have hfs := h.grown.all_of_leaf hkept hroot hleaf
  rw [Label.all_map fs hset.formulas] at hfs
  rw [hset.formulas] at hm
  refine ⟨leafModel fs, fun v => ?_⟩
  have htrue : (rootLabel goal).All ((leafModel fs).Satisfies v) := by
    refine h.grown.affirms_of_hereditary hkept hroot hb ho ?_ ?_
    · rw [Label.all_map fs hset.formulas]
      exact fun f hf => satisfies_leafModel (fun k hk => (hfs k hk).2) (fun k hk => (hfs k hk).1) hc
        (fun k hk => hm _ (List.mem_map_of_mem hk)) hf
    · intro f w path m _ hmf hw hl hS
      obtain ⟨l, hl, hlm⟩ := hl
      exact satisfies_of_parts hmf (hlog l hl _ hlm) (h.numbered.exists_const hw) hS
  rw [rootLabel_all, ((leafModel fs).boolean v).negate] at htrue
  exact htrue

/-- **An open branch without instantiated universals is a countermodel.** If the final tree has
an open leaf on which nothing can be expanded, and no step at the leaf or above it
eliminated a universal or a negated existential quantifier, the closed first-order goal is
false in some interpretation. -/
theorem exists_countermodel (goal : Formula) (hclosed : goal.freeVars = [])
    (hfo : goal.isFirstOrder = true) (n : Nat) (p : WitnessPolicy)
    (hp : p ∈ WitnessPolicy.known) :
    ∃ v, prove goal (.steps n) p = .ok v ∧
      ∀ ls leaf, v.tree.HasBranch ls leaf → leaf.closed = false →
        (∀ e ∈ leaf.formulas, e.match? = none) →
        (∀ l ∈ leaf :: ls, ∀ r ∈ v.log, r.nodeId = l.id →
          r.rule ≠ Rule.universal.name ∧ r.rule ≠ Rule.negatedExistential.name) →
        ∃ (D : Type) (M : Interpretation D), ∀ e, ¬ M.Satisfies e goal := by
  obtain ⟨a, hr, -, hv⟩ := prove_eq goal n hp
  obtain ⟨hcoh, -, -⟩ := hr.coherent
  refine ⟨a.verdict, hv, ?_⟩
  intro ls leaf hb ho hm hlog
  rw [hcoh.verdict_tree] at hb
  obtain ⟨M, hM⟩ := hcoh.exists_falsifying hclosed hfo hb ho hm (by
    rintro l hl r ⟨e, he, hid, hrule⟩ hgamma
    obtain ⟨hu, hx⟩ := hlog l (List.mem_cons_of_mem _ hl) e he hid
    rcases Rule.eq_of_family_gamma hgamma with rfl | rfl
    · exact hu hrule
    · exact hx hrule)
  exact ⟨Formula, M, hM⟩

/-- That all things have a property is refuted by the leaf that says that a witness lacks
it. -/
theorem exists_countermodel_of_universal :
    let P : Formula := .const "P" (.fn .individual .truth)
    let goal : Formula := .all "x" .individual (.app P (.var "x" .individual))
    goal.freeVars = [] ∧ goal.isFirstOrder = true ∧ WitnessPolicy.byName ∈ WitnessPolicy.known ∧
      ∃ (D : Type) (M : Interpretation D), ∀ e, ¬ M.Satisfies e goal := by
  intro P goal
  obtain ⟨v, hv, hcounter⟩ := exists_countermodel goal rfl rfl 5 .byName (by decide)
  have hrun : (prove goal (.steps (5 : Nat)) .byName).toOption.map (fun v =>
      v.tree.leaves.any (fun k => !k.closed && k.formulas.all fun e => e.match? = none) &&
        v.log.all fun r => r.rule ≠ Rule.universal.name && r.rule ≠ Rule.negatedExistential.name) =
      some true := rfl
  rw [hv] at hrun
  have hcheck := Option.some.inj hrun
  simp only [Bool.and_eq_true, List.any_eq_true, List.all_eq_true, decide_eq_true_eq,
    Bool.not_eq_true'] at hcheck
  obtain ⟨⟨leaf, hleaf, hopen, hinert⟩, hlog⟩ := hcheck
  obtain ⟨ls, hb⟩ := Tree.exists_hasBranch hleaf
  exact ⟨rfl, rfl, by decide, hcounter ls leaf hb hopen hinert fun _ _ r hr _ => hlog r hr⟩

end Refutation
