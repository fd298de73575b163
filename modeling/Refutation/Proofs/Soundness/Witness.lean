import Refutation.Proofs.Attempt.Ledger
import Refutation.Proofs.Verdict

/-!
# Choosing elements for the witnesses

To show that a goal holds in an interpretation, the witnesses of the finished table are
given elements, one after the other in the order in which they were minted: a witness that
was minted for a delta formula gets an element that answers it. The formula it was minted
for does not contain it, so later choices do not undo earlier ones (`exists_answering`).
This gives one interpretation for the whole tree, with no regard to branches, and all that
a policy has to provide is in `Tracks`: formulas with one key are equal up to types.

* `Attempt.Reachable.models_of_isValid`: **a goal reported valid holds in every
  interpretation, under every policy that tracks its formulas.**
-/

namespace Refutation

universe u

open Interpretation

/-- What a policy has to know of the formulas at hand: they are sealed, and two of them
with one key are equal up to types. -/
structure Tracks (p : WitnessPolicy) (Q : Table → Formula → Prop) : Prop extends Kept p Q where
  sealed : ∀ {ws : Table} {f : Formula}, Q ws f → Sealed ws f
  keyed : ∀ {s : Supply} {f g : Formula} {x y : String} {τ σ : Ty} {path path' : List String},
    s.Numbered → Q s.witnesses f → Q s.witnesses g →
    f.binding? = some (x, τ) → g.binding? = some (y, σ) →
    p.key (some x) f.text path = p.key (some y) g.text path' → f.untyped = g.untyped

section Answers

variable {D : Type u} {M : Interpretation D} {v : String → D} {f g : Formula} {d : D}

/-- The element makes the body of a delta formula true if any element does. -/
def Answers (M : Interpretation D) (v : String → D) (f : Formula) (d : D) : Prop :=
  ∀ x τ b, f.shape = .delta x τ b → M.Satisfies v f → M.Satisfies (Function.update v x d) b

theorem exists_answers (M : Interpretation D) (v : String → D) (f : Formula) :
    ∃ d, Answers M v f d := by
  by_cases h : ∃ x τ b d, f.shape = .delta x τ b ∧ M.Satisfies (Function.update v x d) b
  · obtain ⟨x, τ, b, d, hs, hd⟩ := h
    refine ⟨d, fun x' τ' b' hs' _ => ?_⟩
    rw [hs] at hs'
    cases hs'
    exact hd
  · refine ⟨M.const "", fun x τ b hs hf => ?_⟩
    obtain ⟨d, hd⟩ := (satisfies_delta hs).1 hf
    exact absurd ⟨x, τ, b, d, hs, hd⟩ h

/-- Only the constants of the formula matter. -/
theorem Answers.congr {κ κ' : String → D} (h : Answers (M.withConsts κ) v f d)
    (hκ : ∀ n ∈ f.constants, κ n = κ' n) (h0 : κ "" = κ' "") :
    Answers (M.withConsts κ') v f d := by
  intro x τ b hs hf
  have hb : b ∈ f.pieces := by unfold Formula.pieces; rw [hs]; exact List.mem_singleton_self b
  have hκb : ∀ n ∈ b.constants, κ n = κ' n := fun n hn =>
    hκ n (Formula.constants_of_mem_pieces hb hn)
  rw [← satisfies_congr M v hκ h0] at hf
  rw [← satisfies_congr M _ hκb h0]
  exact h x τ b hs hf

/-- Types do not matter. -/
theorem Answers.of_untyped_eq (h : Answers M v f d) (hfg : f.untyped = g.untyped) :
    Answers M v g d := by
  intro x τ b hs hg
  have hshape : f.shape.untyped = .delta x .individual b.untyped := by
    rw [← Formula.shape_untyped, hfg, Formula.shape_untyped, hs]; rfl
  obtain ⟨x', τ', b', hs', rfl, hb⟩ :
      ∃ x' τ' b', f.shape = .delta x' τ' b' ∧ x' = x ∧ b'.untyped = b.untyped := by
    cases hs' : f.shape with
    | delta x' τ' b' =>
      rw [hs'] at hshape
      simp only [Shape.untyped, Shape.delta.injEq] at hshape
      exact ⟨x', τ', b', rfl, hshape.1, hshape.2.2⟩
    | _ => rw [hs'] at hshape; simp [Shape.untyped] at hshape
  rw [← satisfies_of_untyped_eq hfg] at hg
  rw [← satisfies_of_untyped_eq hb]
  exact h x' τ' b' hs' hg

/-- Truth passes from a formula to some branch of its expansion, if the witness answers. -/
theorem exists_satisfied_parts {w : Formula} (hl : f.shape ≠ .literal)
    (hw : f.binding? ≠ none → ∃ c σ, w = .const c σ ∧ Answers M v f (M.const c))
    (hf : M.Satisfies v f) : ∃ ps ∈ f.parts w, ∀ g ∈ ps, M.Satisfies v g := by
  by_cases hb : f.binding? = none
  · exact ((M.boolean v).parts hb hl w).1 hf
  obtain ⟨c, σ, rfl, hans⟩ := hw hb
  unfold Formula.binding? at hb
  unfold Formula.parts
  cases hs : f.shape with
  | literal => exact absurd hs hl
  | alpha ps => rw [hs] at hb; exact absurd rfl hb
  | beta a b => rw [hs] at hb; exact absurd rfl hb
  | gamma keep x τ b =>
    have hinst : M.Satisfies v (b.subst x (.const c σ)) :=
      (satisfies_subst_const M v b x c σ).2 ((satisfies_gamma hs).1 hf _)
    refine ⟨_, List.mem_singleton_self _, ?_⟩
    cases keep with
    | true => simp [hf, hinst]
    | false => simp [hinst]
  | delta x τ b =>
    refine ⟨_, List.mem_singleton_self _, ?_⟩
    intro g hg
    rw [List.mem_singleton] at hg
    rw [hg]
    exact (satisfies_subst_const M v b x c σ).2 (hans x τ b hs hf)

/-- **Elements for the first witnesses, each answering its formula**, if no formula contains
its own witness or a later one. -/
theorem exists_answering (M : Interpretation D) (v : String → D) (F : Nat → Formula) (m : Nat)
    (hF : ∀ i < m, ∀ j : Nat, i < j → Supply.witnessName j ∉ (F i).constants) :
    ∃ κ : String → D,
      (∀ c, (∀ j : Nat, 1 ≤ j → c ≠ Supply.witnessName j) → κ c = M.const c) ∧
      ∀ i < m, Answers (M.withConsts κ) v (F i) (κ (Supply.witnessName (i + 1))) := by
  induction m with
  | zero => exact ⟨M.const, fun _ _ => rfl, fun i hi => by omega⟩
  | succ m ih =>
    obtain ⟨κ, hM, hκ⟩ := ih fun i hi => hF i (by omega)
    obtain ⟨d, hd⟩ := exists_answers (M.withConsts κ) v (F m)
    have h0 : κ "" = Function.update κ (Supply.witnessName (m + 1)) d "" :=
      (Function.update_of_ne (Supply.witnessName_ne_empty _).symm _ _).symm
    -- the new element is for a witness that none of the formulas so far contains
    have hagree : ∀ i < m + 1, ∀ n ∈ (F i).constants,
        κ n = Function.update κ (Supply.witnessName (m + 1)) d n := by
      intro i hi n hn
      refine (Function.update_of_ne ?_ _ _).symm
      rintro rfl
      exact hF i hi (m + 1) hi hn
    refine ⟨Function.update κ (Supply.witnessName (m + 1)) d, ?_, ?_⟩
    · intro c hc
      have hne : c ≠ Supply.witnessName (m + 1) := hc (m + 1) (by omega)
      rw [Function.update_of_ne hne]
      exact hM c hc
    · intro i hi
      by_cases him : i = m
      · subst him
        rw [Function.update_self]
        exact hd.congr (hagree i hi) h0
      · have hne : Supply.witnessName (i + 1) ≠ Supply.witnessName (m + 1) := by
          intro h
          have := Supply.witnessName_injective (by omega) (by omega) h
          omega
        rw [Function.update_of_ne hne]
        exact (hκ i (by omega)).congr (hagree i hi) h0

end Answers

namespace Attempt

variable {goal : Formula} {n : Int} {p : WitnessPolicy} {a : Attempt}
  {Q : Table → Formula → Prop}

/-- For every interpretation there are elements for the witnesses of the table such that
each of them answers all formulas at hand that have its key. -/
theorem Reachable.exists_answering_table (hQ : Tracks p Q) (h0 : Q [] goal.negate)
    (h : Reachable goal n p a) {D : Type u} (M : Interpretation D) (v : String → D) :
    ∃ κ : String → D,
      (∀ c, (∀ j : Nat, 1 ≤ j → c ≠ Supply.witnessName j) → κ c = M.const c) ∧
      ∀ f path x τ c σ, Q a.supply.witnesses f → f.binding? = some (x, τ) →
        a.supply.witnesses.lookup (p.key (some x) f.text path) = some (.const c σ) →
        Answers (M.withConsts κ) v f (κ c) := by
  have hledger := h.ledger hQ.toKept h0
  obtain ⟨hcoh, -, -⟩ := h.coherent
  -- the formula each witness was minted for
  have hmint : ∀ i : Nat, ∃ f, ∀ k c, a.supply.witnesses[i]? = some (k, c) →
      ∃ x τ path, f.binding? = some (x, τ) ∧ k = p.key (some x) f.text path ∧
        Q (a.supply.witnesses.take i) f := by
    intro i
    rcases hi : a.supply.witnesses[i]? with _ | ⟨k, c⟩
    · exact ⟨goal, fun k c h => by cases h⟩
    · obtain ⟨f, hf⟩ := hledger i k c hi
      exact ⟨f, fun k' c' h => by cases h; exact hf⟩
  obtain ⟨F, hF⟩ := Classical.skolem.1 hmint
  obtain ⟨κ, hM, hκ⟩ := exists_answering M v F a.supply.witnesses.length (by
    intro i hi j hj
    obtain ⟨x, τ, path, -, -, hq⟩ := hF i _ _ (List.getElem?_eq_getElem hi)
    refine (hQ.sealed hq).fresh j ?_
    rw [List.length_take]
    omega)
  refine ⟨κ, hM, fun f path x τ c σ hf hb hlook => ?_⟩
  obtain ⟨i, σ', hi, hentry, hc⟩ := hcoh.numbered.const_of_lookup hlook
  cases hc
  obtain ⟨y, τ', path', hy, hkey, hq⟩ := hF i _ _ hentry
  refine (hκ i hi).of_untyped_eq ?_
  exact hQ.keyed hcoh.numbered (hQ.mono (List.take_prefix i _) hq) hf hy hb hkey.symm

/-- **A goal reported valid holds in every interpretation.** -/
theorem Reachable.models_of_isValid (hQ : Tracks p Q) (h0 : Q [] goal.negate)
    (h : Reachable goal n p a) (hv : a.verdict.isValid = true) {D : Type u}
    (M : Interpretation D) : M.Models goal := by
  intro v
  obtain ⟨κ, hM, hκ⟩ := h.exists_answering_table hQ h0 M v
  obtain ⟨hcoh, -, hpol⟩ := h.coherent
  subst hpol
  have hfalse : ¬ (rootLabel goal).All ((M.withConsts κ).Satisfies v) := by
    refine hcoh.grown.refutes (hQ.hereditary _ hcoh.numbered) ?_ ?_
      (rootLabel_all_kept hQ.toKept h0 _) (hcoh.isValid_iff.1 hv)
    · intro f w path hf hs hw hS
      refine exists_satisfied_parts hs (fun hb => ?_) hS
      obtain ⟨⟨x, τ⟩, hx⟩ := Option.ne_none_iff_exists'.1 hb
      obtain ⟨c, σ, rfl⟩ := hcoh.numbered.exists_const hw hb
      exact ⟨c, σ, rfl, hκ f path x τ c σ hf hx (hw x τ hx)⟩
    · intro fs hfs hc
      refine ((M.withConsts κ).boolean v).not_all_of_contradiction?
        (fun f hf => (hQ.sealed (hfs f hf)).closed) ?_ hc
      exact fun _ _ _ _ hpq => satisfies_of_untyped_eq hpq
  rw [rootLabel_all, ((M.withConsts κ).boolean v).negate, not_not] at hfalse
  -- the goal contains no witness, so the elements chosen for them do not matter
  refine (satisfies_congr M v ?_ ?_).1 hfalse
  · intro c hc
    refine hM c fun j hj hcj => ?_
    subst hcj
    refine (hQ.sealed h0).fresh j hj ?_
    exact (Formula.negate_iff (Q := fun f => Supply.witnessName j ∈ f.constants)
      (fun _ => Iff.rfl) goal).2 hc
  · exact hM "" fun j _ h => Supply.witnessName_ne_empty j h.symm

end Attempt

end Refutation
