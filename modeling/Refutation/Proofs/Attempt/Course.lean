import Mathlib.Logic.Relation
import Refutation.Proofs.Attempt.Standing

/-!
# The course of a run

Steps lead from each attempt of a run to those after it (`LeadsTo`), and what every step keeps is
kept on the way. Where a run ends does not depend on where on its course it is taken up.

* `Reachable.invariant_of_leadsTo`: what holds at one point and is kept by steps holds later.
* `Reachable.run_eq`: **every attempt that can be reached lies on the run.**
* `Reachable.leadsTo_run`: steps lead from it to the end of the run.
-/

namespace Refutation.Attempt

/-- Steps lead from one attempt to the other. -/
def LeadsTo : Attempt → Attempt → Prop :=
  Relation.ReflTransGen fun a b => ∃ o, a.advance = .ok (b, o)

variable {goal : Formula} {a b : Attempt} {o : Outcome} {n : Int} {p : WitnessPolicy}

theorem Reachable.of_leadsTo (h : Reachable goal n p a) (hl : a.LeadsTo b) :
    Reachable goal n p b := by
  induction hl with
  | refl => exact h
  | tail _ hb ih =>
    obtain ⟨o, hb⟩ := hb
    exact ih.step hb

/-- What holds of an attempt that can be reached and is kept by every step holds later as well. -/
theorem Reachable.invariant_of_leadsTo {P : Attempt → Prop} (h : Reachable goal n p a)
    (hl : a.LeadsTo b) (ha : P a)
    (hstep : ∀ b c o, Reachable goal n p b → P b → b.Advances c o → P c) : P b := by
  induction hl with
  | refl => exact ha
  | tail hl hb ih =>
    obtain ⟨o, hb⟩ := hb
    have hr := h.of_leadsTo hl
    exact hstep _ _ _ hr ih (hr.advances hb)

theorem Reachable.leadsTo_runFor (k : Nat) (h : Reachable goal n p a) :
    a.LeadsTo (runFor k a).attempt := by
  induction k generalizing a with
  | zero => exact .refl
  | succ k ih =>
    cases hh : a.halted with
    | true => rw [runFor_of_halted _ hh]; exact .refl
    | false =>
      obtain ⟨b, o, hb, -⟩ := h.exists_advance
      rw [runFor_succ k hh hb]
      exact .head ⟨o, hb⟩ (ih (h.step hb))

/-- A step does not change where the run ends. -/
theorem Reachable.run_advance (h : Reachable goal n p a) (hb : a.advance = .ok (b, o)) :
    b.run.attempt = a.run.attempt := by
  cases hh : a.halted with
  | true =>
    obtain ⟨o', hstay⟩ := h.advance_of_halted hh
    rw [hb] at hstay
    cases hstay
    rfl
  | false =>
    obtain ⟨-, hmax, -⟩ := h.coherent
    have hrun : a.run.attempt = (runFor (n - a.step).toNat b).attempt := by
      have hpat : a.patience = (n - a.step).toNat + 1 := by
        unfold patience
        rw [hmax]
        rfl
      unfold run
      rw [hpat, runFor_succ _ hh hb]
    rw [hrun]
    have hadv := h.advances hb
    have hmaxb := hadv.maxSteps_eq.trans hmax
    cases hadv with
    | exhausted hn => unfold run; rw [runFor_of_halted _ rfl, runFor_of_halted _ rfl]
    | limit hn hl hs => unfold run; rw [runFor_of_halted _ rfl, runFor_of_halted _ rfl]
    | @applied l _ _ _ _ _ _ e _ _ _ hn hl hs hmem hp hd hr hx =>
      rw [hmax] at hl
      cases hl
      -- the step has used up one unit of the budget
      have hpat : patience { a.install l.id e with step := a.step + 1 } = (n - a.step).toNat := by
        unfold patience
        rw [hmaxb]
        show (n - (a.step + 1)).toNat + 1 = _
        omega
      unfold run
      rw [hpat]

/-- **Every attempt that can be reached lies on the run.** -/
theorem Reachable.run_eq (h : Reachable goal n p a) :
    a.run.attempt = (Attempt.initial goal (.steps n) p).run.attempt := by
  induction h with
  | initial => rfl
  | step h hb ih => exact (h.run_advance hb).trans ih

/-- From every attempt that can be reached steps lead to the end of the run. -/
theorem Reachable.leadsTo_run (h : Reachable goal n p a) :
    a.LeadsTo (Attempt.initial goal (.steps n) p).run.attempt := by
  rw [← h.run_eq]
  exact h.leadsTo_runFor _

end Refutation.Attempt
