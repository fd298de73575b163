import Refutation.Proofs.Attempt.Course
import Refutation.Proofs.Attempt.Ledger
import Refutation.Proofs.Formula.Truth
import Refutation.Reading.Parser

/-!
# Are witnesses new?

Witnesses are numbered, and a number is never used twice. So a constant on the tree is one of the
goal or a witness that was minted before (`Known`), and the only name a new witness can share is
that of a constant of the goal. Nothing prevents this: the names `c1`, `c2`, … are names like
others.

* `Reachable.run_eq`: every attempt that can be reached lies on the run.
* `Reachable.unused_iff`: a step mints a new name exactly if the goal does not use it.
* `Attempt.mints_unused_iff`: **every witness of a run is new exactly if the goal uses no name of
  a witness that the run mints.**
* `Attempt.mints_constant_of_goal`: a goal that uses such a name counts as valid and is not.
-/

namespace Refutation

/-- The property holds of the formulas on a label and of the formula that was expanded last. -/
structure Label.Throughout (Q : Formula → Prop) (l : Label) : Prop where
  all : l.All Q
  origin : ∀ f, l.origin = some (.formula f) → Q f

/-- Every constant of the formula is one of the goal or a witness of the table. -/
def Known (goal : Formula) (ws : Table) (f : Formula) : Prop :=
  ∀ c ∈ f.constants, c ∈ goal.constants ∨ ∃ j : Nat, j < ws.length ∧ c = Supply.witnessName (j + 1)

namespace Attempt

/-- The next step mints a constant of this name. -/
def Mints (a : Attempt) (c : String) : Prop :=
  ∃ b o key τ, a.advance = .ok (b, o) ∧
    b.supply.witnesses = a.supply.witnesses ++ [(key, .const c τ)]

/-- No constant of this name occurs in the goal or in a formula of a node. -/
structure Unused (goal : Formula) (a : Attempt) (c : String) : Prop where
  goal : c ∉ goal.constants
  tree : ∀ u ∈ a.root.nodes, u.label.Throughout fun f => c ∉ f.constants

end Attempt

open Expand

/-! ## What is on the tree -/

section

variable {p : WitnessPolicy} {ws : Table} {log : List Record} {l : Label} {t u : Tree}
  {Q R : Formula → Prop}

theorem Label.Throughout.mono (h : l.Throughout Q) (hQR : ∀ f, Q f → R f) : l.Throughout R where
  all f hf := hQR f (h.all f hf)
  origin f hf := hQR f (h.origin f hf)

/-- What expansions keep holds throughout every node of a grown tree. -/
theorem Grown.throughout (hQ : Hereditary p ws Q) (h : Grown p ws log l t) (hl : l.Throughout Q)
    (hu : u ∈ t.nodes) : u.label.Throughout Q := by
  refine h.of_mem_nodes (fun l k hl hs => ?_) hl hu
  obtain ⟨hp, hw, horigin, hformulas, -⟩ := hs
  refine ⟨?_, fun g hg => ?_⟩
  · rcases hformulas with hnone | ⟨ps, hps, hfs⟩
    · exact (Label.all_map [] hnone).2 (fun g hg => by cases hg)
    · exact (Label.all_map _ hfs).2 (hQ.all_parts hp hw hl.all hps)
  · rw [horigin] at hg
    cases hg
    exact hp.all_picked hl.all

/-- The constants of a formula stay known when it is expanded. -/
theorem kept_known (p : WitnessPolicy) (goal : Formula) : Kept p (Known goal) where
  mono h hf c hc := by
    have hlen := h.length_le
    rcases hf c hc with hg | ⟨j, hj, hcj⟩
    · exact Or.inl hg
    · exact Or.inr ⟨j, by omega, hcj⟩
  hereditary := by
    intro s hs f w path hf hw ps hps g hg c hc
    rcases Formula.mem_parts hps hg with rfl | ⟨-, hgf⟩ | ⟨x, τ, b, hb, hbf, rfl⟩
    · exact hf c hc
    · exact hf c (Formula.constants_of_mem_pieces hgf hc)
    · -- the only new constant is the witness, which is in the table
      obtain ⟨i, σ, hi, rfl⟩ := hs.const_of_witnessed hw (by rw [hb]; simp)
      rcases Formula.mem_constants_subst_const hc with heq | hc
      · exact Or.inr ⟨i, hi, heq⟩
      · exact hf c (Formula.constants_of_mem_pieces hbf hc)

theorem known_negate (goal : Formula) (ws : Table) : Known goal ws goal.negate := by
  have hnot : ∀ g : Formula, Known goal ws (.not g) ↔ Known goal ws g := fun g => Iff.rfl
  exact (Formula.negate_iff hnot goal).2 fun c hc => Or.inl hc

end

namespace Attempt

variable {goal : Formula} {a b : Attempt} {o : Outcome} {n : Int} {p : WitnessPolicy} {c : String}

/-- **Every constant on the tree is one of the goal or a witness minted before.** -/
theorem Reachable.known (h : Reachable goal n p a) {u : Tree} (hu : u ∈ a.root.nodes) :
    u.label.Throughout (Known goal a.supply.witnesses) := by
  obtain ⟨hcoh, -, rfl⟩ := h.coherent
  have hkept := kept_known a.policy goal
  refine hcoh.grown.throughout (hkept.hereditary _ hcoh.numbered) ⟨?_, ?_⟩ hu
  · exact rootLabel_all_kept hkept (known_negate goal []) _
  · intro f hf
    cases hf
    exact fun c hc => Or.inl hc

/-! ## Minting -/

/-- **A step leaves the table as it is or adds the next witness to it.** -/
theorem Advances.witnesses_cases (h : a.Advances b o) :
    (b.supply.witnesses = a.supply.witnesses ∧ b.supply.minted = a.supply.minted) ∨
      ∃ key τ, b.supply.witnesses =
          a.supply.witnesses ++ [(key, .const (Supply.witnessName (a.supply.minted + 1)) τ)] ∧
        b.supply.minted = a.supply.minted + 1 := by
  cases h with
  | exhausted hn => exact Or.inl ⟨rfl, rfl⟩
  | limit hn hl hs => exact Or.inl ⟨rfl, rfl⟩
  | @applied l pre post f w m s e _ detail after hn hl hs hmem hp hd hr hx =>
    show (e.supply.witnesses = _ ∧ e.supply.minted = _) ∨
      ∃ key τ, e.supply.witnesses = _ ∧ e.supply.minted = _
    rw [hx.witnesses_eq, hx.minted_eq]
    rcases Supply.draw_cases hd with ⟨-, rfl⟩ | ⟨x, τ, -, ⟨-, rfl⟩ | ⟨-, rfl, rfl⟩⟩
    · exact Or.inl ⟨rfl, rfl⟩
    · exact Or.inl ⟨rfl, rfl⟩
    · exact Or.inr ⟨_, τ, rfl, rfl⟩

theorem Advances.witnesses_prefix (h : a.Advances b o) :
    a.supply.witnesses <+: b.supply.witnesses := by
  rcases h.witnesses_cases with ⟨hw, -⟩ | ⟨key, τ, hw, -⟩
  · rewrite [hw]; exact List.prefix_rfl
  · rw [hw]; exact List.prefix_append _ _

/-- What is minted bears the next number. -/
theorem Reachable.of_mints (h : Reachable goal n p a) (hm : a.Mints c) :
    c = Supply.witnessName (a.supply.minted + 1) ∧
      ∃ b, Reachable goal n p b ∧ b.supply.minted = a.supply.minted + 1 := by
  obtain ⟨b, o, key, τ, hb, hw⟩ := hm
  rcases (h.advances hb).witnesses_cases with ⟨hsame, -⟩ | ⟨key', τ', hnew, hminted⟩
  · rw [hsame] at hw
    have hlen := congrArg List.length hw
    simp at hlen
  · rw [hw] at hnew
    have hc : Formula.const c τ = .const (Supply.witnessName (a.supply.minted + 1)) τ' := by
      simpa using congrArg (Option.map Prod.snd ∘ List.getLast?) hnew
    cases hc
    exact ⟨rfl, b, h.step hb, hminted⟩

/-- **A step mints a new name exactly if the goal does not use it.** -/
theorem Reachable.unused_iff (h : Reachable goal n p a) (hm : a.Mints c) :
    Unused goal a c ↔ c ∉ goal.constants := by
  refine ⟨fun hu => hu.goal, fun hg => ⟨hg, fun u hu => (h.known hu).mono fun f hf hc => ?_⟩⟩
  obtain ⟨hname, -⟩ := h.of_mints hm
  have hminted := h.coherent.1.numbered.minted
  rcases hf c hc with hgoal | ⟨j, hj, hcj⟩
  · exact hg hgoal
  · -- an earlier witness has a smaller number
    have hnum := Supply.witnessName_injective (by omega) (by omega) (hcj.symm.trans hname)
    omega

/-- Each witness of the table was minted by a step. -/
theorem Reachable.exists_mints (h : Reachable goal n p a) {k : Nat} (hk : 1 ≤ k)
    (hle : k ≤ a.supply.minted) :
    ∃ b, Reachable goal n p b ∧ b.Mints (Supply.witnessName k) := by
  induction h with
  | initial =>
    have hle' : (k : Int) ≤ 0 := hle
    omega
  | @step a b o h hb ih =>
    rcases (h.advances hb).witnesses_cases with ⟨-, hminted⟩ | ⟨key, τ, hw, hminted⟩
    · exact ih (by omega)
    · by_cases hlast : (k : Int) = a.supply.minted + 1
      · refine ⟨a, h, b, o, key, τ, hb, ?_⟩
        rw [hw, hlast]
      · exact ih (by omega)

/-! ## Along the run -/

/-- **Later steps only add to the table.** -/
theorem Reachable.witnesses_prefix_of_leadsTo (h : Reachable goal n p a) (hl : a.LeadsTo b) :
    a.supply.witnesses <+: b.supply.witnesses := by
  refine h.invariant_of_leadsTo hl (P := fun b => a.supply.witnesses <+: b.supply.witnesses)
    List.prefix_rfl ?_
  intro b c o _ ih hadv
  exact ih.trans hadv.witnesses_prefix

/-- The table at any point is a first part of the table at the end of the run. -/
theorem Reachable.witnesses_prefix_run (h : Reachable goal n p a) :
    a.supply.witnesses <+:
      (Attempt.initial goal (.steps n) p).run.attempt.supply.witnesses :=
  h.witnesses_prefix_of_leadsTo h.leadsTo_run

/-- At no point were more witnesses minted than at the end of the run. -/
theorem Reachable.minted_le (h : Reachable goal n p a) :
    a.supply.minted ≤ (Attempt.initial goal (.steps n) p).run.attempt.supply.minted := by
  have hend := (run_spec goal n p).1.coherent.1.numbered.minted
  have hlen := h.witnesses_prefix_run.length_le
  rw [h.coherent.1.numbered.minted, hend]
  omega

/-- **Every witness of a run is new exactly if the goal uses no name of a witness that the run
mints.** -/
theorem mints_unused_iff (goal : Formula) (n : Int) (p : WitnessPolicy) :
    (∀ a c, Reachable goal n p a → a.Mints c → Unused goal a c) ↔
      ∀ k : Nat, 1 ≤ k → k ≤ (Attempt.initial goal (.steps n) p).run.attempt.supply.minted →
        Supply.witnessName k ∉ goal.constants := by
  constructor
  · intro hnew k hk hle
    obtain ⟨a, ha, hm⟩ := (run_spec goal n p).1.exists_mints hk hle
    exact (hnew a _ ha hm).goal
  · intro hfree a c ha hm
    obtain ⟨hname, b, hb, hminted⟩ := ha.of_mints hm
    have hlen := ha.coherent.1.numbered.minted
    have hle := hb.minted_le
    refine (ha.unused_iff hm).2 ?_
    have hk := hfree (a.supply.witnesses.length + 1) (by omega) (by omega)
    rw [hname, hlen]
    exact hk

/-- If `P` holds of `c1`, then of everything: the goal uses the name of the first witness, so the
witness against its right side is the very thing of its left side. It counts as valid, but there
is an interpretation in which it is false. -/
theorem mints_constant_of_goal :
    let P : Formula := .const "P" (.fn .individual .truth)
    let goal : Formula := .imp (.app P (.const "c1" .individual))
      (.all "x" .individual (.app P (.var "x" .individual)))
    Reading.parse "P(c1) → ∀x:i. P(x)" = .ok goal ∧
      (∃ a, Reachable goal 50 .byName a ∧ a.Mints "c1" ∧ ¬ Unused goal a "c1") ∧
      (∃ v, prove goal .standard .byName = .ok v ∧ v.isValid = true) ∧
      ∃ M : Interpretation Bool, ¬ M.Models goal := by
  intro P goal
  have hrun : (fun a : Attempt => (a.supply.minted, a.verdict.isValid))
      (Attempt.initial goal (.steps 50) .byName).run.attempt = (1, true) := by cbv
  obtain ⟨hminted, hvalid⟩ := Prod.mk.inj hrun
  obtain ⟨a, ha, hm⟩ := (run_spec goal 50 .byName).1.exists_mints (Nat.le_refl 1) (by omega)
  refine ⟨rfl, ⟨a, ha, hm, fun h => h.goal (by decide)⟩, ⟨_, ?_, hvalid⟩, ?_⟩
  · have hstart : Attempt.start goal .standard .byName = .ok _ := start_eq goal 50 (by decide)
    rw [prove, hstart]
    rfl
  · -- `P` holds of one of two things, and `c1` names that one
    refine ⟨⟨fun c => c == "c1", fun _ d => d, fun d => d = true, fun d d' => d = d'⟩, fun h => ?_⟩
    have hall := h (fun _ => false) rfl false
    cases hall

end Attempt

end Refutation
