import Refutation.Proofs.Attempt.Instances
import Refutation.Proofs.Attempt.Unlogged
import Refutation.Proofs.Reading.Names
import Refutation.Proofs.Soundness.Witness

/-!
# Soundness under the occurrence policy

The key of a witness is the text of the formula it is for, with the branch appended. In a
formula that was read, and in all that an expansion makes of it, the text tells the formula
up to types (`Formula.Named.legible`), so two formulas that share a witness are equal up to
types; that is all soundness asks for.

* `models_of_prove_byOccurrence`: **a closed formula that was read and is reported valid
  holds in every interpretation.**
-/

namespace Refutation

universe u

open Formula (Resolved)

theorem Supply.isVariable_witnessName (i : Nat) : Signature.isVariable (witnessName i) = false := by
  rw [Bool.eq_false_iff]
  intro h
  have hlen := Signature.length_of_isVariable h
  rw [toList_witnessName, List.length_cons] at hlen
  have hne : Nat.toDigits 10 i ≠ [] := Nat.toDigits_ne_nil
  have := List.length_pos_iff.2 hne
  omega

/-- The pieces of a resolved formula are resolved. -/
theorem Formula.Resolved.of_mem_pieces {f g : Formula} (hf : f.Resolved) (hg : g ∈ f.pieces) :
    g.Resolved :=
  ⟨hf.named.of_mem_pieces hg, fun n hn => hf.varNames n (varNames_of_mem_pieces hg hn),
    fun n hn => hf.constants n (constants_of_mem_pieces hg hn)⟩

/-- A resolved formula stays so when a witness takes the place of a variable. -/
theorem Formula.Resolved.subst_witness {f : Formula} (hf : f.Resolved) (x : String) (i : Nat)
    (τ : Ty) : (f.subst x (.const (Supply.witnessName i) τ)).Resolved := by
  refine ⟨hf.named.subst_witness x i τ, fun n hn => ?_, fun n hn => ?_⟩
  · exact hf.varNames n (mem_varNames_subst_const hn)
  · rcases mem_constants_subst_const hn with rfl | hn
    · exact Supply.isVariable_witnessName i
    · exact hf.constants n hn

theorem kept_resolved (p : WitnessPolicy) : Kept p fun _ f => f.Resolved where
  mono _ hf := hf
  hereditary := by
    intro s hs f w path hf hw ps hps g hg
    rcases Formula.mem_parts hps hg with rfl | ⟨-, hgf⟩ | ⟨x, τ, b, hb, hbf, rfl⟩
    · exact hf
    · exact hf.of_mem_pieces hgf
    · obtain ⟨i, σ, -, rfl⟩ := hs.const_of_witnessed hw (by rw [hb]; simp)
      exact (hf.of_mem_pieces hbf).subst_witness x (i + 1) σ

/-- Resolved formulas with one key are equal up to types. -/
theorem untyped_eq_of_key_eq {f g : Formula} (hf : f.Resolved) (hg : g.Resolved)
    {x y : Option String} {path path' : List String}
    (h : WitnessPolicy.byOccurrence.key x f.text path =
      WitnessPolicy.byOccurrence.key y g.text path') : f.untyped = g.untyped := by
  obtain ⟨hspell, -⟩ := (hf.named.key_eq_iff hg.named).1 h
  refine Formula.untyped_eq_of_spelled_eq (V := fun n => Signature.isVariable n = true)
    hf.varNames ?_ hg.varNames ?_ hspell
  · exact fun n hn => by simp [hf.constants n hn]
  · exact fun n hn => by simp [hg.constants n hn]

theorem tracks_byOccurrence :
    Tracks .byOccurrence fun ws f => Sealed ws f ∧ f.Resolved where
  toKept := (kept_sealed _).and (kept_resolved _)
  sealed h := h.1
  keyed _ hf hg _ _ h := untyped_eq_of_key_eq hf.2 hg.2 h

/-- **Soundness under the occurrence policy.** A closed formula that was read, without
constants of the form in which witnesses are named, holds in every interpretation if the
prover reports it valid. That equations and applications have terms inside is not needed:
what is no term stands for some element, whatever the expansions. -/
theorem models_of_prove_byOccurrence (text : String) (goal : Formula)
    (hparse : Reading.parse text = .ok goal) (hclosed : goal.freeVars = [])
    (hfresh : ∀ k : Nat, 1 ≤ k → Supply.witnessName k ∉ goal.constants) (n : Nat) :
    ∃ v, prove goal (.steps n) .byOccurrence = .ok v ∧
      (v.isValid = true → ∀ (D : Type u) (M : Interpretation D), M.Models goal) := by
  obtain ⟨a, hr, -, hv⟩ := prove_eq goal n (p := .byOccurrence) (by decide)
  have hres : goal.negate.Resolved := by
    refine (Formula.negate_iff (fun g => ?_) goal).2 (Reading.resolved_of_parse hparse)
    exact ⟨fun h => ⟨h.named.not_body, h.varNames, h.constants⟩, fun h => h.not⟩
  refine ⟨a.verdict, hv, fun hvalid D M => ?_⟩
  exact hr.models_of_isValid tracks_byOccurrence ⟨sealed_negate hclosed hfresh, hres⟩ hvalid M

/-- That nothing both has a property and lacks it is found, so it holds everywhere. -/
theorem models_of_prove_byOccurrence_consistency :
    let P : Formula := .const "P" (.fn .individual .truth)
    let x : Formula := .var "x" .individual
    let goal : Formula := .not (.ex "x" .individual (.and (.app P x) (.not (.app P x))))
    Reading.parse "¬∃x.(P(x) ∧ ¬P(x))" = .ok goal ∧ goal.freeVars = [] ∧
      (∀ k : Nat, 1 ≤ k → Supply.witnessName k ∉ goal.constants) ∧
      ∃ v, prove goal (.steps (10 : Nat)) .byOccurrence = .ok v ∧ v.isValid = true ∧
        ∀ (D : Type) (M : Interpretation D), M.Models goal := by
  intro P x goal
  have hparse : Reading.parse "¬∃x.(P(x) ∧ ¬P(x))" = .ok goal := rfl
  have hfresh : ∀ k : Nat, 1 ≤ k → Supply.witnessName k ∉ goal.constants :=
    fun k _ => Supply.witnessName_notMem (by decide) k
  obtain ⟨v, hv, hmodels⟩ := models_of_prove_byOccurrence _ goal hparse rfl hfresh 10
  have hvalid : v.isValid = true := by
    rw [Attempt.isValid_of_prove (by decide) hv]
    cbv
  exact ⟨hparse, rfl, hfresh, v, hv, hvalid, hmodels hvalid⟩

end Refutation
