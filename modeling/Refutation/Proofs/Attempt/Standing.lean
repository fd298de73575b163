import Mathlib.Logic.Basic
import Refutation.Proofs.Attempt.Halting
import Refutation.Proofs.Verdict

/-!
# Why an attempt has halted

An attempt halts because the search finds nothing, or because it finds something when the budget
is used up. The search looks at inner nodes too and skips what is closed, but in a grown tree it
finds something exactly if an open leaf holds a formula that a rule applies to
(`Grown.next?_eq_none_iff`). So what an attempt says of its halt can be checked against its leaves,
and it stays true: a halted attempt stays as it is.

* `Stands.of_advances`: a step keeps what an attempt says of its halt true.
* `Attempt.run_halt_truthful`: **a run halts for the reason it gives, its verdict agrees, and
  another step changes nothing.**
-/

namespace Refutation

/-- **The search finds nothing exactly if all formulas of all open leaves are literals.** -/
theorem Grown.next?_eq_none_iff {p : WitnessPolicy} {ws : Table} {log : List Record} {l : Label}
    {t : Tree} (h : Grown p ws log l t) :
    t.next? = none ↔ ∀ k ∈ t.openLeaves, ∀ e ∈ k.formulas, e.match? = none := by
  constructor
  · intro hn k hk
    obtain ⟨hk, ho⟩ := List.mem_filter.1 hk
    exact h.inert_of_next? hn hk (by simpa using ho)
  · intro hinert
    cases hn : t.next? with
    | none => rfl
    | some um =>
      obtain ⟨u, m⟩ := um
      -- the search would have found an open leaf with a formula to expand
      obtain ⟨k, pre, f, post, rfl, hu, hp⟩ := h.picks_of_next? hn
      have hk : k ∈ t.openLeaves :=
        List.mem_filter.2 ⟨Tree.mem_leaves_of_mem_nodes hu, by rw [hp.opened]; rfl⟩
      have hnone : f.match? = none := hinert k hk _ hp.mem
      rw [hp.expands] at hnone
      cases hnone

namespace Attempt

variable {goal : Formula} {a b : Attempt} {o : Outcome} {n : Int} {p : WitnessPolicy}

/-- What an attempt with a budget of `n` steps says of its halt, and what stands behind it. -/
inductive Stands (n : Int) (a : Attempt) : Prop
  | going (hh : a.halted = false) (hl : a.stepLimitReached = false)
  | exhausted (h : a.Exhausted) (hn : a.root.next? = none)
  | stopped (h : a.Stopped) (hn : a.root.next? ≠ none) (hs : n ≤ a.step)

theorem Stands.initial (goal : Formula) (n : Int) (p : WitnessPolicy) :
    Stands n (Attempt.initial goal (.steps n) p) :=
  .going rfl rfl

/-- Only an attempt that goes on expands a formula. -/
theorem Stands.going_of_applied {t : Tree} {m : Match} {e : Expansion}
    (hmax : a.maxSteps = .steps n) (h : Stands n a) (hadv : a.Advances b (.applied t m e)) :
    b.halted = false ∧ b.stepLimitReached = false := by
  cases hadv with
  | applied hn hl hs hmem hp hd hr hx =>
    rw [hmax] at hl
    cases hl
    cases h with
    | going hh hlim => exact ⟨hh, hlim⟩
    | exhausted _ hnone => rw [hnone] at hn; cases hn
    | stopped _ _ hle => omega

/-- **A step keeps what an attempt says of its halt true.** -/
theorem Stands.of_advances (hmax : a.maxSteps = .steps n) (h : Stands n a) (hadv : a.Advances b o) :
    Stands n b := by
  cases hadv with
  | exhausted hn =>
    have hlim : a.stepLimitReached = false := by
      cases h with
      | going hh hl => exact hl
      | exhausted h _ => exact h.limit
      | stopped _ hne _ => exact absurd hn hne
    exact .exhausted ⟨rfl, rfl, hlim⟩ hn
  | limit hn hl hs =>
    rw [hmax] at hl
    cases hl
    refine .stopped ⟨rfl, rfl, rfl⟩ ?_ hs
    show a.root.next? ≠ none
    rw [hn]
    exact Option.some_ne_none _
  | applied hn hl hs hmem hp hd hr hx =>
    obtain ⟨hh, hlim⟩ := h.going_of_applied hmax (.applied hn hl hs hmem hp hd hr hx)
    exact .going hh hlim

theorem Reachable.stands (h : Reachable goal n p a) : Stands n a :=
  h.invariant (.initial goal n p) fun _ _ _ hr hs hadv => hs.of_advances hr.coherent.2.1 hadv

theorem Exhausted.halt_eq (h : a.Exhausted) :
    { a with halted := true, haltReason := "no expandable formulas" } = a := by
  rw [← h.halted, ← h.reason]

theorem Stopped.halt_eq (h : a.Stopped) :
    { a with halted := true, stepLimitReached := true, haltReason := "max steps reached" } = a := by
  obtain ⟨hh, hr, hl⟩ := h
  cases a
  cases hh
  cases hr
  cases hl
  rfl

/-- **A halted attempt stays as it is.** -/
theorem Reachable.advance_of_halted (h : Reachable goal n p a) (hh : a.halted = true) :
    ∃ o, a.advance = .ok (a, o) := by
  obtain ⟨-, hmax, -⟩ := h.coherent
  obtain ⟨b, o, hb, hadv⟩ := h.exists_advance
  refine ⟨o, ?_⟩
  rw [hb]
  cases h.stands with
  | going hgo _ => rw [hh] at hgo; cases hgo
  | exhausted hex hnone =>
    cases hadv with
    | exhausted hn => rw [hex.halt_eq]
    | limit hn => rw [hnone] at hn; cases hn
    | applied hn => rw [hnone] at hn; cases hn
  | stopped hstop hne hle =>
    cases hadv with
    | exhausted hn => exact absurd hn hne
    | limit hn hl hs => rw [hstop.halt_eq]
    | applied hn hl hs =>
      rw [hmax] at hl
      cases hl
      omega

/-- A halted attempt has only literals on its open leaves and says that its budget was not used
up, or has used it up and says so while an open leaf holds something to expand. -/
theorem Reachable.halt_cases (h : Reachable goal n p a) (hh : a.halted = true) :
    (a.stepLimitReached = false ∧ ∀ k ∈ a.root.openLeaves, ∀ e ∈ k.formulas, e.match? = none) ∨
      (a.stepLimitReached = true ∧ n ≤ a.step ∧
        ∃ k ∈ a.root.openLeaves, ∃ e ∈ k.formulas, e.match? ≠ none) := by
  have hiff := h.coherent.1.grown.next?_eq_none_iff
  cases h.stands with
  | going hgo _ => rw [hh] at hgo; cases hgo
  | exhausted hex hnone => exact Or.inl ⟨hex.limit, hiff.1 hnone⟩
  | stopped hstop hne hle =>
    have hleft := mt hiff.2 hne
    push Not at hleft
    exact Or.inr ⟨hstop.limit, hle, hleft⟩

/-- A goal with an open leaf does not count as valid. -/
theorem Coherent.isValid_eq_false (h : a.Coherent goal) {k : Label} (hk : k ∈ a.root.openLeaves) :
    a.verdict.isValid = false := by
  obtain ⟨hk, ho⟩ := List.mem_filter.1 hk
  rw [← Bool.not_eq_true, h.isValid_iff]
  intro hall
  rw [hall k hk] at ho
  cases ho

/-- **A run halts and says truly why.** It halts within its budget, and then all formulas of all
open leaves are literals, or it has used up its budget, and then there is an open leaf with a
formula that a rule applies to. So the goal does not count as valid where the budget was used up,
the verdict is inconclusive exactly then, and another step of the halted attempt changes
nothing. -/
theorem run_halt_truthful (goal : Formula) (n : Nat) {p : WitnessPolicy}
    (hp : p ∈ WitnessPolicy.known) :
    ∃ a, Attempt.start goal (.steps n) p = .ok a ∧
      a.run.fault = none ∧ a.run.attempt.halted = true ∧
      Xor
        (a.run.attempt.stepLimitReached = false ∧
          ∀ k ∈ a.run.attempt.root.openLeaves, ∀ e ∈ k.formulas, e.match? = none)
        (a.run.attempt.stepLimitReached = true ∧ a.run.attempt.step = n ∧
          ∃ k ∈ a.run.attempt.root.openLeaves, ∃ e ∈ k.formulas, e.match? ≠ none) ∧
      (∃ v, prove goal (.steps n) p = .ok v ∧ v = a.run.attempt.verdict ∧
        ¬ (v.isValid = true ∧ v.stepLimitReached = true) ∧
        v.inconclusive = v.stepLimitReached) ∧
      ∃ o, a.run.attempt.advance = .ok (a.run.attempt, o) := by
  have hstart := start_eq goal n hp
  have hprove : prove goal (.steps n) p =
      .ok (Attempt.initial goal (.steps n) p).run.attempt.verdict := by
    rw [prove, hstart]
    rfl
  refine ⟨_, hstart, ?_⟩
  obtain ⟨hreach, hfault, hhalt⟩ := run_spec goal n p
  have hstay := hreach.advance_of_halted hhalt
  have hbudget := hreach.step_le (by omega)
  have hcoh := hreach.coherent.1
  rcases hreach.halt_cases hhalt with ⟨hlim, hinert⟩ | ⟨hlim, hle, hleft⟩
  · refine ⟨hfault, hhalt, Or.inl ⟨⟨hlim, hinert⟩, ?_⟩, ⟨_, hprove, rfl, ?_, ?_⟩, hstay⟩
    · rintro ⟨hlim', -⟩
      rw [hlim] at hlim'; cases hlim'
    · rintro ⟨-, hlim'⟩
      exact absurd (hlim.symm.trans hlim') Bool.false_ne_true
    · rw [Verdict.inconclusive, show Verdict.stepLimitReached _ = false from hlim, Bool.false_and]
  · obtain ⟨k, hk, hexp⟩ := hleft
    have hvalid := hcoh.isValid_eq_false hk
    refine ⟨hfault, hhalt, Or.inr ⟨⟨hlim, ?_, k, hk, hexp⟩, ?_⟩, ⟨_, hprove, rfl, ?_, ?_⟩, hstay⟩
    · omega
    · rintro ⟨hlim', -⟩
      rw [hlim] at hlim'; cases hlim'
    · rintro ⟨hvalid', -⟩
      exact absurd (hvalid.symm.trans hvalid') Bool.false_ne_true
    · rw [Verdict.inconclusive, hvalid, Bool.not_false, Bool.and_true]

/-- That nothing both has a property and lacks it, with a budget of one step: the run stops with
a conjunction left on its open leaf. -/
theorem run_halt_truthful_one_step :
    let P : Formula := .const "P" (.fn .individual .truth)
    let x : Formula := .var "x" .individual
    let goal : Formula := .not (.ex "x" .individual (.and (.app P x) (.not (.app P x))))
    WitnessPolicy.byName ∈ WitnessPolicy.known ∧
      ∃ v, prove goal (.steps (1 : Nat)) .byName = .ok v ∧ v.stepLimitReached = true ∧
        v.inconclusive = true ∧ v.isValid = false := by
  intro P x goal
  have hp : WitnessPolicy.byName ∈ WitnessPolicy.known := by decide
  obtain ⟨a, -, -, -, -, ⟨v, hv, -, hnot, hinc⟩, -⟩ := run_halt_truthful goal 1 hp
  have hrun : (prove goal (.steps (1 : Nat)) .byName).toOption.map Verdict.stepLimitReached =
      some true := rfl
  rw [hv] at hrun
  have hlim : v.stepLimitReached = true := Option.some.inj hrun
  exact ⟨hp, v, hv, hlim, hinc.trans hlim, by simpa [hlim] using hnot⟩

end Attempt

end Refutation
