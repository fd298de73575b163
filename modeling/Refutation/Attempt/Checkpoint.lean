import Refutation.Attempt.Document
import Refutation.Attempt.Run

/-!
# Checkpoints

A run can save the attempt after every step. It then ends early at the first attempt that
cannot be written, and that attempt is kept.
-/

namespace Refutation.Attempt

/-- Why a run that saves its attempts ended early. -/
inductive CheckpointError where
  /-- A formula could not be expanded. -/
  | expand (e : ExpandError)
  /-- An attempt could not be written. -/
  | encode (e : EncodeError)
  deriving DecidableEq, Repr

/-- A run that saves its attempts: where it ended, what the steps did, the text saved last,
and the fault that ended it. -/
structure SavedRun where
  attempt : Attempt
  outcomes : List Outcome
  text : Option String
  fault : Option CheckpointError
  deriving DecidableEq, Repr

/-- At most `n` steps, each followed by saving the attempt; `text` was saved before. -/
def runSavingFor (n : Nat) (text : Option String) (a : Attempt) : SavedRun :=
  match n with
  | 0 => ⟨a, [], text, none⟩
  | n + 1 =>
    if a.halted then ⟨a, [], text, none⟩
    else
      match a.advance with
      | .error e => ⟨{ a with supply := e.supply }, [], text, some (.expand e.cause)⟩
      | .ok (b, o) =>
        match b.save with
        | .error e => ⟨b, [o], text, some (.encode e)⟩
        | .ok saved =>
          let r := runSavingFor n (some saved) b
          { r with outcomes := o :: r.outcomes }

/-- All steps until the attempt has halted, each followed by saving the attempt. -/
def runSaving (a : Attempt) : SavedRun :=
  runSavingFor a.patience none a

end Refutation.Attempt
