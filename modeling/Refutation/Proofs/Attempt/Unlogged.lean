import Refutation.Proofs.Attempt.Course
import Refutation.Proofs.Verdict

/-!
# Runs without a log

What a step does to the tree and to the supply does not depend on the log, so the tree of a run can
be followed without the wording of its records. This is how long runs are evaluated.

* `map_expand`: an expansion without its record.
* `Attempt.root_run`: **the tree of a run grows without the log.**
* `Attempt.isValid_run`: the verdict is told by that tree (`Attempt.closesIn`).
-/

namespace Refutation

open Expand

/-- The tree and the supply after a rule was applied to a formula on a node. -/
def expandUnlogged (policy : WitnessPolicy) (s : Supply) (t : Tree) (num : Int) (m : Match) :
    Except Refusal (Tree × Supply) :=
  if m.formula ∈ t.label.formulas then
    let rest := t.label.formulas.erase m.formula
    match m.move with
    | .replace parts => extend t m num (parts ++ rest) t.label.instantiations s
    | .split left right => branch t m num (left :: rest) (right :: rest) s
    | .instantiate x τ body keep =>
      let (c, s) := s.witness (policy.key x m.formula.text t.label.path) τ
      match c.name?, body.asFormula with
      | none, _ => .error ⟨.namelessWitness, s⟩
      | _, .error e => .error ⟨.notFormula e, s⟩
      | some name, .ok body =>
        let inst : Entry := instantiated body x c
        extend t m num (if keep then m.formula :: inst :: rest else inst :: rest)
          (t.label.instantiations ++ [.of x name]) s
  else .error ⟨.notOnNode, s⟩

/-- The tree after at most `n` steps, of which the first has the number `num`. -/
def Tree.grow (p : WitnessPolicy) : Nat → Int → Tree → Supply → Tree
  | 0, _, t, _ => t
  | n + 1, num, t, s =>
    match t.next? with
    | none => t
    | some (u, m) =>
      match expandUnlogged p s u num m with
      | .error _ => t
      | .ok (u', s') => grow p n (num + 1) (t.replace u.id u') s'

/-- Adding a record and leaving it out again. -/
theorem map_logged (x : Except Refusal (Tree × Supply)) (r : Record) :
    (x >>= fun e => pure (⟨e.1, r, e.2⟩ : Expansion)).map (fun e => (e.tree, e.supply)) = x := by
  cases x <;> rfl

theorem map_expand (p : WitnessPolicy) (s : Supply) (t : Tree) (num : Int) (m : Match) :
    (expand p s t num m).map (fun e => (e.tree, e.supply)) = expandUnlogged p s t num m := by
  unfold expand expandUnlogged
  split
  · cases m.move with
    | replace parts => exact map_logged _ _
    | split left right => exact map_logged _ _
    | instantiate x τ body keep =>
      simp only []
      generalize s.witness (p.key x m.formula.text t.label.path) τ = drawn
      generalize drawn.1.name? = name
      generalize body.asFormula = read
      cases name with
      | none => rfl
      | some name =>
        cases read with
        | error e => rfl
        | ok b => exact map_logged _ _
  · rfl

namespace Attempt

/-- Within the budget a step is the expansion of the first formula that can be expanded. -/
theorem advance_of_next? {a : Attempt} {n : Int} {u : Tree} {m : Match}
    (hnext : a.root.next? = some (u, m)) (hmax : a.maxSteps = .steps n) (hn : a.step < n) :
    a.advance = (expand a.policy a.supply u (a.step + 1) m).map fun e =>
      ({ a.install u.id e with step := a.step + 1 }, .applied u m e) := by
  rw [advance, hnext, hmax]
  simp only [Budget.limit?, if_neg (Int.not_le.2 hn)]
  cases expand a.policy a.supply u (a.step + 1) m <;> rfl

/-- With `n` steps of its budget left, a run grows the tree by `n` steps. -/
theorem root_runFor (n : Nat) {a : Attempt} (hopen : a.halted = false)
    (hmax : a.maxSteps = .steps (a.step + n)) :
    (runFor (n + 1) a).attempt.root = a.root.grow a.policy n (a.step + 1) a.supply := by
  induction n generalizing a with
  | zero =>
    have hlimit : a.step ≥ a.step + (0 : Nat) := by omega
    rw [Tree.grow, runFor, hopen, advance, hmax]
    cases a.root.next? with
    | none => rfl
    | some r =>
      simp only [Budget.limit?, if_pos hlimit]
      rfl
  | succ n ih =>
    rw [Tree.grow]
    cases hnext : a.root.next? with
    | none =>
      rw [runFor, hopen, advance, hnext]
      simp only [runFor_of_halted]
      rfl
    | some r =>
      obtain ⟨u, m⟩ := r
      have hadv := advance_of_next? hnext hmax (by omega)
      have hun := map_expand a.policy a.supply u (a.step + 1) m
      cases hexp : expand a.policy a.supply u (a.step + 1) m with
      | error e =>
        rw [hexp] at hadv hun
        rw [runFor, hopen, hadv]
        simp only [← hun]
        rfl
      | ok e =>
        have hleft : a.maxSteps = .steps (a.step + 1 + n) := by
          rw [hmax]
          congr 1
          omega
        rw [hexp] at hadv hun
        rw [runFor_succ _ hopen hadv]
        simp only [← hun]
        exact ih (a := { a.install u.id e with step := a.step + 1 }) hopen hleft

/-- **The tree of a run grows without the log.** -/
theorem root_run (goal : Formula) (n : Nat) (p : WitnessPolicy) :
    (Attempt.initial goal (.steps n) p).run.attempt.root =
      (Attempt.initial goal (.steps n) p).root.grow p n 1 {} := by
  have hpat : (Attempt.initial goal (.steps n) p).patience = n + 1 := by
    simp [patience, Attempt.initial, Budget.limit?]
  rw [run, hpat]
  refine root_runFor n rfl ?_
  show Budget.steps n = .steps (0 + n)
  rw [Int.zero_add]

/-- Whether at most `n` steps close every branch of the tree that grows without the log. -/
def closesIn (p : WitnessPolicy) (n : Nat) (goal : Formula) : Bool :=
  ((Attempt.initial goal (.steps n) p).root.grow p n 1 {}).openLeaves.isEmpty

/-- The verdict is told by that tree. -/
theorem isValid_run (goal : Formula) (n : Nat) (p : WitnessPolicy) :
    (Attempt.initial goal (.steps n) p).run.attempt.verdict.isValid = closesIn p n goal := by
  obtain ⟨hcoh, -⟩ := (run_spec goal n p).1.coherent
  rw [Verdict.isValid, hcoh.verdict_opened, root_run, closesIn]

theorem isValid_of_prove {goal : Formula} {n : Nat} {p : WitnessPolicy} {v : Verdict}
    (hp : p ∈ WitnessPolicy.known) (hv : prove goal (.steps n) p = .ok v) :
    v.isValid = closesIn p n goal := by
  rw [prove_eq_run goal n hp] at hv
  rw [← Except.ok.inj hv, isValid_run]

end Attempt

end Refutation
