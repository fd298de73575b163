import Refutation.Proofs.Attempt.Unlogged
import Refutation.Proofs.Formula.Instance
import Refutation.Proofs.Soundness.Witness

/-!
# Soundness under the name policy

The key of a witness is the name it is put for, so one name has one witness in the whole
tree. Every formula at hand is then a part of the negated goal with the witnesses of the
table put for its free variables (`PartOf`). If no two quantifiers of the goal bind the same
name, such a formula is known by the name it binds, and two formulas that share a witness
are the same.

* `models_of_prove_byName`: **a closed goal whose quantifiers bind distinct names, if
  reported valid, holds in every interpretation.**
-/

namespace Refutation

universe u

open Formula (Constants Descends)

/-- What the table puts for a name under the name policy. -/
def witnessOf (ws : Table) (x : String) : Option Formula :=
  ws.lookup (some x)

/-- The formula is a part of `root` with witnesses put for its free variables. -/
def PartOf (root : Formula) (ws : Table) (f : Formula) : Prop :=
  ∃ g, Descends root g ∧ (∀ y ∈ g.freeVars, ∃ w, witnessOf ws y = some w) ∧
    f = g.instantiate (witnessOf ws)

theorem Supply.Numbered.constants_witnessOf {s : Supply} (hs : s.Numbered) :
    Constants (witnessOf s.witnesses) := by
  intro x w hw
  obtain ⟨i, τ, -, -, hc⟩ := hs.const_of_lookup hw
  exact ⟨_, τ, hc⟩

/-- More entries in the table do not change what was put in. -/
theorem PartOf.mono {root f : Formula} {ws ws' : Table} (h : PartOf root ws f)
    (hws : ws <+: ws') : PartOf root ws' f := by
  obtain ⟨g, hd, hfree, rfl⟩ := h
  have hkeep : ∀ y ∈ g.freeVars, ∃ w, witnessOf ws y = some w ∧ witnessOf ws' y = some w := by
    intro y hy
    obtain ⟨w, hw⟩ := hfree y hy
    exact ⟨w, hw, hws.lookup_eq_some hw⟩
  refine ⟨g, hd, fun y hy => ?_, Formula.instantiate_congr fun y hy => ?_⟩
  · obtain ⟨w, -, hw⟩ := hkeep y hy
    exact ⟨w, hw⟩
  · obtain ⟨w, hw, hw'⟩ := hkeep y hy
    rw [hw, hw']

/-- An expansion of a part with the witness of its name gives parts. -/
theorem PartOf.of_mem_parts {root f w h : Formula} {ps : List Formula} {s : Supply}
    (hs : s.Numbered) (hf : PartOf root s.witnesses f)
    (hw : ∀ x τ, f.binding? = some (x, τ) → witnessOf s.witnesses x = some w)
    (hps : ps ∈ f.parts w) (hh : h ∈ ps) : PartOf root s.witnesses h := by
  have hconst := hs.constants_witnessOf
  rcases Formula.mem_parts hps hh with rfl | ⟨hn, hhf⟩ | ⟨x, τ, b, hb, hbf, rfl⟩
  · exact hf
  · obtain ⟨g, hd, hfree, rfl⟩ := hf
    rw [Formula.binding?_instantiate hconst] at hn
    obtain ⟨k, hk, rfl⟩ := Formula.exists_piece_of_binding?_none hconst hn hhf
    refine ⟨k, hd.tail hk, fun y hy => ?_, rfl⟩
    rcases Formula.freeVars_of_mem_pieces hk hy with hy | ⟨σ, hσ⟩
    · exact hfree y hy
    · rw [hn] at hσ; cases hσ
  · have hx := hw x τ hb
    obtain ⟨g, hd, hfree, rfl⟩ := hf
    rw [Formula.binding?_instantiate hconst] at hb
    obtain ⟨k, hk, rfl⟩ := Formula.exists_piece_of_binding?_some hconst hb hbf
    refine ⟨k, hd.tail hk, fun y hy => ?_, Formula.instantiate_eq_subst hconst hx k⟩
    rcases Formula.freeVars_of_mem_pieces hk hy with hy | ⟨σ, hσ⟩
    · exact hfree y hy
    · rw [hb] at hσ
      cases hσ
      exact ⟨w, hx⟩

theorem kept_partOf (root : Formula) : Kept .byName (PartOf root) where
  mono hws hf := hf.mono hws
  hereditary _ hs _ _ _ hf hw _ hps _ hg := hf.of_mem_parts hs hw hps hg

/-- Parts that bind the same name are the same, if all quantifiers bind distinct names. -/
theorem PartOf.eq_of_binding? {root f g : Formula} {s : Supply} (hroot : root.binders.Nodup)
    (hs : s.Numbered) (hf : PartOf root s.witnesses f) (hg : PartOf root s.witnesses g)
    {x : String} {τ σ : Ty} (hfx : f.binding? = some (x, τ)) (hgx : g.binding? = some (x, σ)) :
    f = g := by
  obtain ⟨f', hdf, -, rfl⟩ := hf
  obtain ⟨g', hdg, -, rfl⟩ := hg
  rw [Formula.binding?_instantiate hs.constants_witnessOf] at hfx hgx
  rw [Descends.eq_of_binding? hroot hdf hdg hfx hgx]

theorem tracks_byName {root : Formula} (hroot : root.binders.Nodup) :
    Tracks .byName fun ws f => Sealed ws f ∧ PartOf root ws f where
  toKept := (kept_sealed _).and (kept_partOf root)
  sealed h := h.1
  keyed := by
    intro s f g x y τ σ path path' hs hf hg hfx hgy hkey
    obtain rfl : x = y := Option.some.inj hkey
    rw [hf.2.eq_of_binding? hroot hs hg.2 hfx hgy]

/-- **Soundness under the name policy.** A closed goal whose quantifiers bind distinct names,
without constants of the form in which witnesses are named, holds in every interpretation
if the prover reports it valid. As under the other policy, what stands inside applications
and equations does not matter. -/
theorem models_of_prove_byName (goal : Formula) (hclosed : goal.freeVars = [])
    (hbinders : goal.binders.Nodup)
    (hfresh : ∀ k : Nat, 1 ≤ k → Supply.witnessName k ∉ goal.constants) (n : Nat) :
    ∃ v, prove goal (.steps n) .byName = .ok v ∧
      (v.isValid = true → ∀ (D : Type u) (M : Interpretation D), M.Models goal) := by
  obtain ⟨a, hr, -, hv⟩ := prove_eq goal n (p := .byName) (by decide)
  have hsealed := sealed_negate hclosed hfresh
  have hroot : goal.negate.binders.Nodup :=
    (Formula.negate_iff (Q := fun f => f.binders.Nodup) (fun _ => Iff.rfl) goal).2 hbinders
  have hpart : PartOf goal.negate [] goal.negate := by
    refine ⟨_, .refl _, ?_, (Formula.instantiate_none (fun _ => rfl) _).symm⟩
    rw [hsealed.closed]
    exact fun y hy => by cases hy
  refine ⟨a.verdict, hv, fun hvalid D M => ?_⟩
  exact hr.models_of_isValid (tracks_byName hroot) ⟨hsealed, hpart⟩ hvalid M

/-- That nothing has a property and lacks it, whatever else there is, is found with two
witnesses, so it holds everywhere. -/
theorem models_of_prove_byName_consistency :
    let P : Formula := .const "P" (.fn .individual .truth)
    let Q : Formula := .const "Q" (.fn .individual .truth)
    let x : Formula := .var "x" .individual
    let y : Formula := .var "y" .individual
    let goal : Formula := .not (.ex "x" .individual
      (.and (.app P x) (.ex "y" .individual (.and (.app Q y) (.not (.app P x))))))
    goal.freeVars = [] ∧ goal.binders.Nodup ∧
      (∀ k : Nat, 1 ≤ k → Supply.witnessName k ∉ goal.constants) ∧
      ∃ v, prove goal (.steps (10 : Nat)) .byName = .ok v ∧ v.isValid = true ∧
        ∀ (D : Type) (M : Interpretation D), M.Models goal := by
  intro P Q x y goal
  have hfresh : ∀ k : Nat, 1 ≤ k → Supply.witnessName k ∉ goal.constants :=
    fun k _ => Supply.witnessName_notMem (by decide) k
  have hbinders : goal.binders.Nodup := by decide
  obtain ⟨v, hv, hmodels⟩ := models_of_prove_byName goal rfl hbinders hfresh 10
  have hvalid : v.isValid = true := by
    rw [Attempt.isValid_of_prove (by decide) hv]
    cbv
  exact ⟨rfl, hbinders, hfresh, v, hv, hvalid, hmodels hvalid⟩

end Refutation
