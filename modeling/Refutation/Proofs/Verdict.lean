import Refutation.Proofs.Attempt.Reach
import Refutation.Verdict

/-!
# From runs to verdicts

A verdict is read off the halted attempt at the end of a run (`prove_eq`). Its tree is the
attempt's own, so the goal counts as valid exactly if every leaf is closed
(`Attempt.Coherent.isValid_iff`), and if the budget was not used up, all that is left on
the open leaves are literals (`Attempt.Coherent.inert_of_halted`).
-/

namespace Refutation

theorem prove_eq_run (goal : Formula) (n : Nat) {p : WitnessPolicy}
    (hp : p ∈ WitnessPolicy.known) :
    prove goal (.steps n) p = .ok (Attempt.initial goal (.steps n) p).run.attempt.verdict := by
  rw [prove, Attempt.start_eq goal n hp]
  rfl

/-- **Proving a goal gives the verdict on a halted attempt that a run reaches.** -/
theorem prove_eq (goal : Formula) (n : Nat) {p : WitnessPolicy} (hp : p ∈ WitnessPolicy.known) :
    ∃ a, Attempt.Reachable goal n p a ∧ a.halted = true ∧
      prove goal (.steps n) p = .ok a.verdict := by
  obtain ⟨hr, -, hh⟩ := Attempt.run_spec goal n p
  exact ⟨_, hr, hh, prove_eq_run goal n hp⟩

theorem Attempt.rootLabel_all {goal : Formula} {Q : Formula → Prop} :
    (Attempt.rootLabel goal).All Q ↔ Q goal.negate := by
  rw [Label.all_map [goal.negate] rfl]
  simp

/-- What does not depend on an outer negation holds at the root if it holds of the goal. -/
theorem Attempt.rootLabel_all_iff {goal : Formula} {Q : Formula → Prop}
    (h : ∀ g, Q (.not g) ↔ Q g) : (Attempt.rootLabel goal).All Q ↔ Q goal := by
  rw [rootLabel_all, Formula.negate_iff h]

namespace Attempt.Coherent

variable {goal : Formula} {a : Attempt}

theorem verdict_tree (h : a.Coherent goal) : a.verdict.tree = a.root :=
  h.grown.classify_eq

theorem verdict_opened (h : a.Coherent goal) : a.verdict.opened = a.root.openLeaves := by
  show a.root.classify.openLeaves = _
  rw [h.grown.classify_eq]

/-- The goal counts as valid exactly if every leaf is closed. -/
theorem isValid_iff (h : a.Coherent goal) :
    a.verdict.isValid = true ↔ ∀ k ∈ a.root.leaves, k.closed = true := by
  unfold Verdict.isValid
  rw [h.verdict_opened, Tree.openLeaves, List.isEmpty_iff, List.filter_eq_nil_iff]
  simp

/-- If the goal does not count as valid, some leaf is open. -/
theorem exists_open_leaf (h : a.Coherent goal) (hv : a.verdict.isValid ≠ true) :
    ∃ k ∈ a.root.leaves, k.closed = false := by
  by_contra hc
  refine hv (h.isValid_iff.2 fun k hk => ?_)
  by_contra hk'
  exact hc ⟨k, hk, by simpa using hk'⟩

/-- An attempt that halted within its budget has only literals on its open leaves. -/
theorem inert_of_halted (h : a.Coherent goal) (hh : a.halted = true)
    (hs : a.stepLimitReached = false) {k : Label} (hk : k ∈ a.root.leaves)
    (ho : k.closed = false) : ∀ e ∈ k.formulas, e.match? = none :=
  h.grown.inert_of_next? (h.halted hh hs) hk ho

end Attempt.Coherent

end Refutation
