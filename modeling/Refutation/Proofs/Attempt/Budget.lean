import Refutation.Proofs.Attempt.Course

/-!
# Larger budgets

A budget is looked at only when there is something to expand, and then only to tell whether to
stop. So attempts that differ in nothing but the budget take the same steps until the smaller one
is used up (`Reachable.runFor_withBudget`), and the run with the larger one goes on from there. If
the last step that the smaller budget allows leaves nothing to expand, both runs halt for that
reason.

* `Reachable.agrees_runFor`: the end of a run is met again after as many steps as the run took.
* `Reachable.run_of_next?_eq_none`: where nothing can be expanded, a run halts without a step.
* `Attempt.larger_budget_continues`: **a run with a larger budget continues the one with the
  smaller**, and gives the same verdict if that one did not use up its budget.
-/

namespace Refutation.Attempt

/-- The attempt with another budget. -/
def withBudget (a : Attempt) (n : Int) : Attempt :=
  { a with maxSteps := .steps n }

/-- The attempts have come equally far: they agree in all but the budget and the halt. -/
structure Agrees (a b : Attempt) : Prop where
  goal : a.goal = b.goal
  root : a.root = b.root
  supply : a.supply = b.supply
  log : a.log = b.log
  step : a.step = b.step

variable {goal : Formula} {a b : Attempt} {o : Outcome} {m n : Int} {p : WitnessPolicy}

theorem Agrees.refl (a : Attempt) : a.Agrees a := ⟨rfl, rfl, rfl, rfl, rfl⟩

theorem Agrees.symm (h : a.Agrees b) : b.Agrees a :=
  ⟨h.goal.symm, h.root.symm, h.supply.symm, h.log.symm, h.step.symm⟩

theorem Agrees.trans {c : Attempt} (h : a.Agrees b) (h' : b.Agrees c) : a.Agrees c :=
  ⟨h.goal.trans h'.goal, h.root.trans h'.root, h.supply.trans h'.supply, h.log.trans h'.log,
    h.step.trans h'.step⟩

theorem Agrees.withBudget (h : a.Agrees b) (n : Int) : (a.withBudget n).Agrees b :=
  ⟨h.goal, h.root, h.supply, h.log, h.step⟩

/-- The verdict depends on how far an attempt has come and on whether its budget was used up. -/
theorem Agrees.verdict_eq (h : a.Agrees b) (hl : a.stepLimitReached = b.stepLimitReached) :
    a.verdict = b.verdict := by
  unfold verdict
  rw [h.goal, h.root, h.supply, h.log, hl]

/-! ## One step -/

/-- **A step within both budgets is the same step.** -/
theorem advance_withBudget (hmax : a.maxSteps = .steps m) (hm : a.step < m) (hn : a.step < n)
    (hb : a.advance = .ok (b, o)) : (a.withBudget n).advance = .ok (b.withBudget n, o) := by
  unfold advance at hb ⊢
  unfold withBudget
  cases hnext : a.root.next? with
  | none =>
    simp only [hnext] at hb ⊢
    cases hb
    rfl
  | some um =>
    have hm : ¬ a.step ≥ m := by omega
    have hn : ¬ a.step ≥ n := by omega
    simp only [hnext, hmax, Budget.limit?, hm, hn, if_false] at hb ⊢
    cases hx : expand a.policy a.supply um.1 (a.step + 1) um.2 with
    | error e => simp only [hx] at hb; cases hb
    | ok e =>
      simp only [hx] at hb ⊢
      cases hb
      rfl

/-- A step is counted once, if at all. -/
theorem Advances.step_cases (h : a.Advances b o) :
    (b.halted = true ∧ a.Agrees b) ∨ b.step = a.step + 1 := by
  cases h with
  | exhausted hn => exact Or.inl ⟨rfl, rfl, rfl, rfl, rfl, rfl⟩
  | limit hn hl hs => exact Or.inl ⟨rfl, rfl, rfl, rfl, rfl, rfl⟩
  | applied hn hl hs hmem hp hd hr hx => exact Or.inr rfl

/-! ## Runs -/

/-- The steps taken are counted. -/
theorem Reachable.step_le_of_leadsTo (h : Reachable goal m p a) (hl : a.LeadsTo b) :
    a.step ≤ b.step := by
  refine h.invariant_of_leadsTo hl (P := fun b => a.step ≤ b.step) le_rfl ?_
  intro b c o _ ih hadv
  obtain ⟨-, hag⟩ | hstep := hadv.step_cases
  · exact ih.trans hag.step.le
  · omega

/-- **Runs with two budgets take the same steps as long as both allow them.** -/
theorem Reachable.runFor_withBudget (k : Nat) (h : Reachable goal m p a) (hm : a.step + k ≤ m)
    (hn : a.step + k ≤ n) :
    (runFor k (a.withBudget n)).attempt = (runFor k a).attempt.withBudget n := by
  induction k generalizing a with
  | zero => rfl
  | succ k ih =>
    cases hh : a.halted with
    | true =>
      rw [runFor_of_halted (k + 1) hh, runFor_of_halted (a := a.withBudget n) (k + 1) hh]
    | false =>
      obtain ⟨b, o, hb, hadv⟩ := h.exists_advance
      obtain ⟨-, hmax, -⟩ := h.coherent
      have hb' := advance_withBudget (n := n) hmax (by omega) (by omega) hb
      rw [runFor_succ k hh hb, runFor_succ (a := a.withBudget n) k hh hb']
      have hstep : b.step ≤ a.step + 1 := by
        obtain ⟨-, hag⟩ | hstep := hadv.step_cases
        · have := hag.step
          omega
        · exact hstep.le
      exact ih (h.step hb) (by omega) (by omega)

/-- The end of a run is met again after as many steps as were counted on the way. -/
theorem Reachable.agrees_runFor (j : Nat) (h : Reachable goal m p a) :
    (runFor ((runFor j a).attempt.step - a.step).toNat a).attempt.Agrees (runFor j a).attempt := by
  induction j generalizing a with
  | zero =>
    have hzero : (a.step - a.step).toNat = 0 := by omega
    show (runFor (a.step - a.step).toNat a).attempt.Agrees a
    rw [hzero]
    exact Agrees.refl a
  | succ j ih =>
    cases hh : a.halted with
    | true =>
      rw [runFor_of_halted (j + 1) hh, runFor_of_halted _ hh]
      exact Agrees.refl a
    | false =>
      obtain ⟨b, o, hb, hadv⟩ := h.exists_advance
      rw [runFor_succ j hh hb]
      show (runFor ((runFor j b).attempt.step - a.step).toNat a).attempt.Agrees (runFor j b).attempt
      obtain ⟨hbh, hag⟩ | hstep := hadv.step_cases
      · -- the run halts here, and no step was counted
        rw [runFor_of_halted j hbh]
        have hzero : (b.step - a.step).toNat = 0 := by
          have := hag.step
          omega
        show (runFor (b.step - a.step).toNat a).attempt.Agrees b
        rw [hzero]
        exact hag
      · have hle := (h.step hb).step_le_of_leadsTo ((h.step hb).leadsTo_runFor j)
        have hsucc : ((runFor j b).attempt.step - a.step).toNat =
            ((runFor j b).attempt.step - b.step).toNat + 1 := by omega
        rw [hsucc, runFor_succ _ hh hb]
        exact ih (h.step hb)

/-- The log at any point is a first part of the log at the end of the run. -/
theorem Reachable.log_prefix_run (h : Reachable goal m p a) :
    a.log <+: (Attempt.initial goal (.steps m) p).run.attempt.log := by
  rw [← h.run_eq]
  exact ⟨_, (log_runFor a.patience a).symm⟩

/-- Where nothing can be expanded, a run halts without a step and within the budget. -/
theorem Reachable.run_of_next?_eq_none (h : Reachable goal m p a) (hnone : a.root.next? = none) :
    a.Agrees a.run.attempt ∧ a.run.attempt.stepLimitReached = false := by
  have hexh : a.advance =
      .ok ({ a with halted := true, haltReason := "no expandable formulas" }, .exhausted) := by
    simp only [advance, hnone]
  cases h.stands with
  | going hh hl =>
    unfold run patience
    rw [runFor_succ _ hh hexh, runFor_of_halted _ rfl]
    exact ⟨⟨rfl, rfl, rfl, rfl, rfl⟩, hl⟩
  | exhausted hex _ =>
    unfold run
    rw [runFor_of_halted _ hex.halted]
    exact ⟨Agrees.refl a, hex.limit⟩
  | stopped _ hne _ => exact absurd hnone hne

/-! ## Two budgets -/

/-- After as many steps as the run with the smaller budget takes, the run with the larger one has
come as far. -/
theorem agrees_of_le (goal : Formula) {m n : Nat} (hmn : m ≤ n) (p : WitnessPolicy) :
    let r := (Attempt.initial goal (.steps m) p).run.attempt
    (runFor r.step.toNat (Attempt.initial goal (.steps n) p)).attempt.Agrees r := by
  intro r
  have hinit : Reachable goal m p (Attempt.initial goal (.steps m) p) := .initial
  have hpos : 0 ≤ r.step := hinit.step_le_of_leadsTo hinit.leadsTo_run
  have hle : r.step ≤ m := (run_spec goal m p).1.step_le (by omega)
  have hsmall : (runFor r.step.toNat (Attempt.initial goal (.steps m) p)).attempt.Agrees r := by
    have hend : (runFor (r.step - 0).toNat (Attempt.initial goal (.steps m) p)).attempt.Agrees r :=
      hinit.agrees_runFor _
    rw [Int.sub_zero] at hend
    exact hend
  have hlarge := hinit.runFor_withBudget (n := n) r.step.toNat
    (by show 0 + (r.step.toNat : Int) ≤ m; omega) (by show 0 + (r.step.toNat : Int) ≤ n; omega)
  show (runFor r.step.toNat ((Attempt.initial goal (.steps m) p).withBudget n)).attempt.Agrees r
  rw [hlarge]
  exact hsmall.withBudget n

/-- A run that halts within the smaller budget ends with the same verdict under the larger one. -/
theorem verdict_of_le (goal : Formula) {m n : Nat} (hmn : m ≤ n) (p : WitnessPolicy)
    (hl : (Attempt.initial goal (.steps m) p).run.attempt.stepLimitReached = false) :
    (Attempt.initial goal (.steps n) p).run.attempt.verdict =
      (Attempt.initial goal (.steps m) p).run.attempt.verdict := by
  have hag := agrees_of_le goal hmn p
  set r := (Attempt.initial goal (.steps m) p).run.attempt
  set b := (runFor r.step.toNat (Attempt.initial goal (.steps n) p)).attempt
  obtain ⟨hr, -, hhalt⟩ := run_spec goal m p
  have hnone : r.root.next? = none := by
    cases hr.stands with
    | going hgo _ => rw [hhalt] at hgo; cases hgo
    | exhausted _ hnone => exact hnone
    | stopped hstop _ _ => cases hl.symm.trans hstop.limit
  -- nothing is left to expand where the smaller budget ends, so the larger one is not asked
  have hb : Reachable goal n p b :=
    Reachable.initial.of_leadsTo (Reachable.initial.leadsTo_runFor _)
  obtain ⟨hend, hlim⟩ := hb.run_of_next?_eq_none (hag.root ▸ hnone)
  rw [hb.run_eq] at hend hlim
  exact (hend.symm.trans hag).verdict_eq (hlim.trans hl.symm)

/-- Nothing is open in a valid verdict, so the budget of its run was not used up. -/
theorem stepLimitReached_of_isValid (goal : Formula) (m : Nat) (p : WitnessPolicy)
    (hv : (Attempt.initial goal (.steps m) p).run.attempt.verdict.isValid = true) :
    (Attempt.initial goal (.steps m) p).run.attempt.stepLimitReached = false := by
  obtain ⟨hr, -, hhalt⟩ := run_spec goal m p
  obtain ⟨hl, -⟩ | ⟨-, -, k, hk, -⟩ := hr.halt_cases hhalt
  · exact hl
  · rw [hr.coherent.1.isValid_eq_false hk] at hv
    cases hv

/-- **A run with a larger budget continues the one with the smaller.** Its log starts with the log
of the smaller run, and after as many steps as that one took, the tree, the supply of numbers and
witnesses and the log are those in which it ended. If the smaller run did not use up its budget,
the larger one gives the same verdict, so a goal that is valid within a budget is valid within
every larger one. -/
theorem larger_budget_continues (goal : Formula) {m n : Nat} (hmn : m ≤ n) {p : WitnessPolicy}
    (hp : p ∈ WitnessPolicy.known) :
    ∃ a b, Attempt.start goal (.steps m) p = .ok a ∧ Attempt.start goal (.steps n) p = .ok b ∧
      a.run.attempt.log <+: b.run.attempt.log ∧
      (runFor a.run.attempt.step.toNat b).attempt.Agrees a.run.attempt ∧
      (a.run.attempt.stepLimitReached = false →
        prove goal (.steps n) p = prove goal (.steps m) p) ∧
      ∀ v, prove goal (.steps m) p = .ok v → v.isValid = true →
        ∃ w, prove goal (.steps n) p = .ok w ∧ w.isValid = true := by
  have hag := agrees_of_le goal hmn p
  refine ⟨_, _, start_eq goal m hp, start_eq goal n hp, ?_, hag, ?_, ?_⟩
  · rw [← hag.log]
    have hinit : Reachable goal n p (Attempt.initial goal (.steps n) p) := .initial
    exact (hinit.of_leadsTo (hinit.leadsTo_runFor _)).log_prefix_run
  · intro hl
    rw [prove_eq_run goal n hp, prove_eq_run goal m hp, verdict_of_le goal hmn p hl]
  · intro v hv hvalid
    rw [prove_eq_run goal m hp] at hv
    cases hv
    have hl := stepLimitReached_of_isValid goal m p hvalid
    refine ⟨_, prove_eq_run goal n hp, ?_⟩
    rw [verdict_of_le goal hmn p hl]
    exact hvalid

/-- Two steps are just enough to refute a contradiction under a quantifier, so a thousand give the
same verdict. -/
theorem larger_budget_continues_contradiction :
    let P : Formula := .const "P" (.fn .individual .truth)
    let x : Formula := .var "x" .individual
    let goal : Formula := .not (.ex "x" .individual (.and (.app P x) (.not (.app P x))))
    2 ≤ 1000 ∧ WitnessPolicy.byName ∈ WitnessPolicy.known ∧
      ∃ v, prove goal (.steps 2) .byName = .ok v ∧ v.isValid = true ∧ v.log.length = 2 ∧
        prove goal (.steps 1000) .byName = .ok v := by
  intro P x goal
  have hm : 2 ≤ 1000 := by decide
  have hp : WitnessPolicy.byName ∈ WitnessPolicy.known := by decide
  have hrun : (fun a : Attempt => (a.log.length, a.stepLimitReached, a.verdict.isValid))
      (Attempt.initial goal (.steps 2) .byName).run.attempt = (2, false, true) := by cbv
  obtain ⟨hlog, hrest⟩ := Prod.mk.inj hrun
  obtain ⟨hlim, hvalid⟩ := Prod.mk.inj hrest
  have hprove := prove_eq_run goal 2 hp
  obtain ⟨a, b, ha, -, -, -, hsame, -⟩ := larger_budget_continues goal hm hp
  rw [start_eq goal 2 hp] at ha
  cases ha
  exact ⟨hm, hp, _, hprove, hvalid, hlog, (hsame hlim).trans hprove⟩

end Refutation.Attempt
