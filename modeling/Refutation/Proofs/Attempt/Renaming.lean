import Refutation.Proofs.Attempt.Freshness
import Refutation.Proofs.Attempt.Simulation
import Refutation.Proofs.Attempt.Unlogged

/-!
# Other names for constants

A run never looks at the name of a constant but to compare it with another. So renaming the
constants of a goal renames them in the whole run and changes nothing else, as long as different
constants get different names and none of them, before or after, is named like a witness.

* `faithful_renaming`: the constants of a run are those of the goal and witnesses, and such a
  renaming keeps them apart.
* `Attempt.renaming_invariance`: **the runs for a goal and for the renamed goal are the same, up to
  the names of constants.**
-/

namespace Refutation

namespace Formula

variable {f g : Formula} {ρ : String → String} {S : Set String}

/-- A renaming that keeps constants apart keeps formulas apart. -/
theorem eq_of_recast_eq (hρ : Set.InjOn ρ S) (hf : ∀ c ∈ f.constants, c ∈ S)
    (hg : ∀ c ∈ g.constants, c ∈ S) (h : f.recast ρ id = g.recast ρ id) : f = g := by
  have hback : ∀ k : Formula, (∀ c ∈ k.constants, c ∈ S) →
      (k.recast ρ id).recast (Function.invFunOn ρ S) id = k := by
    intro k hk
    have hid : ∀ c ∈ k.constants, Function.invFunOn ρ S (ρ c) = id c :=
      fun c hc => hρ.leftInvOn_invFunOn (hk c hc)
    rw [recast_recast]
    exact (recast_congr hid).trans (recast_id k)
  rw [← hback f hf, h, hback g hg]

end Formula

section

variable {goal : Formula} {r ρ : String → String}

/-- Constants of the goal and witnesses. -/
def Known.names (goal : Formula) : Set String :=
  {c | c ∈ goal.constants ∨ ∃ k : Nat, c = Supply.witnessName (k + 1)}

theorem Known.mem_names {ws : Table} {f : Formula} (h : Known goal ws f) :
    ∀ c ∈ f.constants, c ∈ Known.names goal := by
  intro c hc
  rcases h c hc with hg | ⟨k, -, hk⟩
  · exact Or.inl hg
  · exact Or.inr ⟨k, hk⟩

/-- **A renaming that keeps the constants of the goal apart, and apart from the witnesses, keeps
apart what a run compares.** -/
theorem faithful_renaming (hr : Set.InjOn r {c | c ∈ goal.constants})
    (himage : ∀ k : Nat, Supply.witnessName (k + 1) ∉ (goal.recast r id).constants)
    (hρ : ∀ c ∈ goal.constants, ρ c = r c)
    (hwit : ∀ k : Nat, ρ (Supply.witnessName (k + 1)) = Supply.witnessName (k + 1)) :
    Faithful .byName (Known goal) ρ id := by
  have hinj : Set.InjOn ρ (Known.names goal) := by
    have hne : ∀ c ∈ goal.constants, ∀ k : Nat, ρ c ≠ Supply.witnessName (k + 1) := by
      intro c hc k h
      refine himage k ?_
      rw [Formula.constants_recast, ← h, hρ c hc]
      exact List.mem_map_of_mem hc
    rintro c (hc | ⟨i, rfl⟩) d (hd | ⟨j, rfl⟩) h
    · rw [hρ c hc, hρ d hd] at h
      exact hr hc hd h
    · rw [hwit] at h
      exact absurd h (hne c hc j)
    · rw [hwit] at h
      exact absurd h.symm (hne d hd i)
    · rwa [hwit, hwit] at h
  refine ⟨kept_known .byName goal, hwit, fun s _ fs hfs => ⟨?_, ?_⟩, ?_⟩
  · refine hinj.mono ?_
    rintro c ⟨f, hf, hc⟩
    exact (hfs f hf).mem_names c hc
  · rintro q ⟨f, hf, hq⟩ q' ⟨g, hg, hq'⟩ h
    have hinward := Formula.inward_constants (· ∈ Known.names goal)
    exact Formula.eq_of_recast_eq hinj (hinward.of_mem_seals (hfs f hf).mem_names hq)
      (hinward.of_mem_seals (hfs g hg).mem_names hq') h
  · -- under the name policy the key is the name of the variable
    intro s _ f g x y σ τ i j _ _ _ _
    exact Iff.rfl

end

namespace Attempt

open scoped Classical in
/-- **Renaming constants does not change a proof.** Let `r` give different names to different
constants of the goal, and let no constant be named like a witness, neither in the goal nor in the
renamed goal. Under the name policy, and with any budget, the runs for the two goals take the same
steps: the same rules at the same nodes, on the same branches, with the same instantiations. After
any number of steps, and at the end, one tree is the other with the constants renamed on all its
nodes, witnesses apart. So the verdicts are the same. -/
theorem renaming_invariance (goal : Formula) (r : String → String) (n : Nat)
    (hr : Set.InjOn r {c | c ∈ goal.constants})
    (hgoal : ∀ k : Nat, Supply.witnessName (k + 1) ∉ goal.constants)
    (himage : ∀ k : Nat, Supply.witnessName (k + 1) ∉ (goal.recast r id).constants) :
    ∃ ρ : String → String, (∀ c ∈ goal.constants, ρ c = r c) ∧
      (∀ k : Nat, ρ (Supply.witnessName (k + 1)) = Supply.witnessName (k + 1)) ∧
      (∀ k, let a := (runFor k (Attempt.initial goal (.steps n) .byName)).attempt
        let b := (runFor k (Attempt.initial (goal.recast r id) (.steps n) .byName)).attempt
        b.log.map Record.wordless = a.log.map Record.wordless ∧
          b.root.relabel Label.wordless = a.root.relabel (Label.recast ρ id) ∧
          b.step = a.step ∧ b.halted = a.halted ∧ b.haltReason = a.haltReason) ∧
      ∃ v w, prove goal (.steps n) .byName = .ok v ∧
        prove (goal.recast r id) (.steps n) .byName = .ok w ∧
        w.log.map Record.wordless = v.log.map Record.wordless ∧
        w.tree.relabel Label.wordless = v.tree.relabel (Label.recast ρ id) ∧
        w.isValid = v.isValid ∧ w.stepLimitReached = v.stepLimitReached ∧
        w.inconclusive = v.inconclusive := by
  let ρ : String → String := fun c => if ∃ k : Nat, c = Supply.witnessName (k + 1) then c else r c
  have hρ : ∀ c ∈ goal.constants, ρ c = r c := by
    intro c hc
    exact if_neg fun ⟨k, hk⟩ => hgoal k (hk ▸ hc)
  have hwit : ∀ k : Nat, ρ (Supply.witnessName (k + 1)) = Supply.witnessName (k + 1) :=
    fun k => if_pos ⟨k, rfl⟩
  have hF := faithful_renaming hr himage hρ hwit
  have h0 : Known goal [] goal.negate := known_negate goal []
  rw [← Formula.recast_congr hρ]
  refine ⟨ρ, hρ, hwit, fun k => ?_, ?_⟩
  · have h := Mirrors.runFor hF h0 k .initial .initial (.initial goal n .byName)
    exact ⟨h.log, h.root, h.step, h.halted, h.reason⟩
  · have hp : WitnessPolicy.byName ∈ WitnessPolicy.known := by decide
    have h := Mirrors.run (n := n) hF h0
    obtain ⟨hcoh, -⟩ := (run_spec goal n .byName).1.coherent
    obtain ⟨hcoh', -⟩ := (run_spec (goal.recast ρ id) n .byName).1.coherent
    refine ⟨_, _, prove_eq_run goal n hp, prove_eq_run (goal.recast ρ id) n hp, h.log, ?_, ?_, h.limit,
      ?_⟩
    · rw [hcoh.verdict_tree, hcoh'.verdict_tree, h.root]
    · exact h.isValid_eq hcoh hcoh'
    · exact h.inconclusive_eq hcoh hcoh'

/-- If some thing has one property while a given thing has another, the given thing has the latter.
The names of the constants go round, and one of them becomes `app`, which as the name of a constant
is a name like others. -/
theorem renaming_invariance_app :
    let goal : String → String → String → Formula := fun p q c =>
      let Q : Formula := .app (.const q (.fn .individual .truth)) (.const c .individual)
      .imp (.ex "x" .individual
        (.and (.app (.const p (.fn .individual .truth)) (.var "x" .individual)) Q)) Q
    let r : String → String := fun n => if n = "P" then "Q" else if n = "Q" then "app" else "P"
    (goal "P" "Q" "a").recast r id = goal "Q" "app" "P" ∧
      Set.InjOn r {c | c ∈ (goal "P" "Q" "a").constants} ∧
      ∃ v w, prove (goal "P" "Q" "a") (.steps (5 : Nat)) .byName = .ok v ∧
        prove (goal "Q" "app" "P") (.steps (5 : Nat)) .byName = .ok w ∧
        w.log.map Record.wordless = v.log.map Record.wordless ∧
        v.isValid = true ∧ w.isValid = true := by
  intro goal r
  have heq : (goal "P" "Q" "a").recast r id = goal "Q" "app" "P" := rfl
  have hr : Set.InjOn r {c | c ∈ (goal "P" "Q" "a").constants} := by
    intro c hc d hd h
    have hmem : ∀ c ∈ (goal "P" "Q" "a").constants, ∀ d ∈ (goal "P" "Q" "a").constants,
        r c = r d → c = d := by decide
    exact hmem c hc d hd h
  obtain ⟨-, -, -, -, v, w, hv, hw, hlog, -, hvalid, -⟩ :=
    renaming_invariance (goal "P" "Q" "a") r 5 hr
      (fun k => Supply.witnessName_notMem (by decide) (k + 1))
      fun k => Supply.witnessName_notMem (by decide) (k + 1)
  have htrue : v.isValid = true := by
    rw [isValid_of_prove (by decide) hv]
    cbv
  exact ⟨heq, hr, v, w, hv, hw, hlog, htrue, hvalid.trans htrue⟩

end Attempt

end Refutation
