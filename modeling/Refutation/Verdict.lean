import Refutation.Attempt.Document
import Refutation.Attempt.Run

/-!
# Verdicts

The verdict on an attempt is its classified tree and the leaves in it. The goal is valid
if no leaf is open. If the budget was used up while leaves were open, nothing follows.
-/

namespace Refutation

/-- The outcome of a proof attempt. -/
structure Verdict where
  goal : Option Entry
  tree : Tree
  log : List Record
  closed : List Label
  opened : List Label
  stepLimitReached : Bool
  supply : Supply
  deriving DecidableEq, Repr

/-- The verdict on an attempt. -/
def Attempt.verdict (a : Attempt) : Verdict :=
  let tree := a.root.classify
  { goal := a.goal, tree, log := a.log, closed := tree.closedLeaves, opened := tree.openLeaves,
    stepLimitReached := a.stepLimitReached, supply := a.supply }

namespace Verdict

/-- Every branch is closed. -/
def isValid (v : Verdict) : Bool :=
  v.opened.isEmpty

/-- The number of branches. -/
def branches (v : Verdict) : Nat :=
  v.closed.length + v.opened.length

/-- The budget was used up before every branch was closed. -/
def inconclusive (v : Verdict) : Bool :=
  v.stepLimitReached && !v.isValid

/-- The document of the verdict without the tree. -/
def summary (v : Verdict) : Json :=
  .obj [
    ("closed_branches", .int v.closed.length),
    ("open_branches", .int v.opened.length),
    ("is_valid", .bool v.isValid),
    ("total_branches", .int v.branches),
    ("steps", .int v.log.length),
    ("step_limit_reached", .bool v.stepLimitReached)]

/-- The document of the verdict, if the tree can be written and all witnesses have names. -/
def toJson (v : Verdict) : Except EncodeError Json :=
  match v.tree.encodeError?, v.supply.names? with
  | some e, _ => .error e
  | none, none => .error .namelessWitness
  | none, some names =>
    .ok (.obj [
      ("goal", .str (Entry.optionText v.goal)),
      ("summary", v.summary),
      ("tree", v.tree.toJson),
      ("steps", .arr (v.log.map Record.toJson)),
      ("witnesses", .obj (names.map fun w => (keyName w.1, .str w.2)))])

/-- The text of a saved verdict. -/
def save (v : Verdict) : Except EncodeError String :=
  v.toJson.map Json.indented

end Verdict

/-- Try to prove a goal by refuting its negation. -/
def prove (goal : Entry) (maxSteps : Budget) (policy : WitnessPolicy) :
    Except SetupError Verdict :=
  (Attempt.start goal maxSteps policy).map fun a => a.run.attempt.verdict

end Refutation
