import Refutation.Attempt.Expand

/-!
# Running an attempt

One step finds the first node that holds a formula to expand and expands it. If there is
none, or if the budget is used up, the attempt halts instead; the first of the two counts.
A run repeats steps until the attempt has halted. Since every step halts the attempt or
uses up one unit of the budget, a run is never longer than the budget and one more step.

* `Attempt.advance`: one step, and what it did (`Outcome`).
* `Attempt.run`: all steps until the attempt has halted.
-/

namespace Refutation

/-- What a step did. -/
inductive Outcome where
  /-- There was nothing to expand. -/
  | exhausted
  /-- There was something to expand, but the budget was used up. -/
  | limit (maxSteps : Budget)
  /-- A formula of a node was expanded. -/
  | applied (node : Tree) (m : Match) (e : Expansion)
  deriving DecidableEq, Repr

namespace Attempt

/-- The attempt with an expansion carried out: the first node with the number of the
expanded node is replaced. -/
def install (a : Attempt) (id : Int) (e : Expansion) : Attempt :=
  { a with root := a.root.replace id e.tree, supply := e.supply, log := a.log ++ [e.record] }

/-- One step. -/
def advance (a : Attempt) : Except Refusal (Attempt × Outcome) :=
  match a.root.next? with
  | none => .ok ({ a with halted := true, haltReason := "no expandable formulas" }, .exhausted)
  | some (t, m) =>
    match a.maxSteps.limit? with
    | none => .error ⟨.noBudget, a.supply⟩
    | some n =>
      if a.step ≥ n then
        .ok ({ a with halted := true, stepLimitReached := true, haltReason := "max steps reached" },
          .limit a.maxSteps)
      else
        match expand a.policy a.supply t (a.step + 1) m with
        | .error e => .error e
        | .ok e => .ok ({ a.install t.id e with step := a.step + 1 }, .applied t m e)

/-- A sequence of steps: where it ended, what the steps did, and the fault that ended it. -/
structure Run where
  attempt : Attempt
  outcomes : List Outcome
  fault : Option ExpandError
  deriving DecidableEq, Repr

/-- At most `n` steps. -/
def runFor (n : Nat) (a : Attempt) : Run :=
  match n with
  | 0 => ⟨a, [], none⟩
  | n + 1 =>
    if a.halted then ⟨a, [], none⟩
    else
      match a.advance with
      | .error e => ⟨{ a with supply := e.supply }, [], some e.cause⟩
      | .ok (b, o) =>
        let r := runFor n b
        { r with outcomes := o :: r.outcomes }

/-- The number of steps after which an attempt has halted for certain. -/
def patience (a : Attempt) : Nat :=
  (a.maxSteps.limit?.getD a.step - a.step).toNat + 1

/-- All steps until the attempt has halted. -/
def run (a : Attempt) : Run :=
  runFor a.patience a

end Attempt

end Refutation
