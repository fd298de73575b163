import Refutation.Report.Outline
import Refutation.Verdict

/-!
# Pages

What is printed for a reader: the progress of a run, the proof tree, the step log and the
verdict. Every text ends with a line feed, unless it is empty.
-/

namespace Refutation

/-- Lines as a text. -/
def ofLines (ls : List String) : String :=
  String.join (ls.map (· ++ "\n"))

/-- A rule across the page. -/
def bar : String :=
  String.ofList (List.replicate 60 '=')

/-- A heading between two rules, after an empty line. -/
def heading (title : String) : List String :=
  ["", bar, title, bar]

/-- A path of turns. -/
def pathText (path : List String) : String :=
  " → ".intercalate path

/-- What is told of a step while a run goes on. -/
def Outcome.progress : Outcome → List String
  | .exhausted => []
  | .limit n =>
    ["  [step limit] " ++ n.text ++ " steps used, branches left open are unresolved"]
  | .applied t m e =>
    ["", "--- Step " ++ toString e.record.num ++ ": " ++ m.rule.name ++ " on " ++ m.formula.text ++
      " (node #" ++ toString t.id ++ ") ---"] ++
    (e.tree.children.map fun c =>
      "  [" ++ (if c.label.closed then "closed" else "open") ++ "] " ++ c.label.title) ++
    (if e.tree.label.closed then
      ["  [closed] " ++ e.tree.label.closureReason.getD "None"] else []) ++
    (e.record.instantiations.map fun i => "  [witness] " ++ Instantiation.text i)

/-- What is told of several steps. -/
def progressText (os : List Outcome) : String :=
  ofLines (os.flatMap Outcome.progress)

/-- The page of a tree. -/
def treePage (t : Tree) : String :=
  ofLines (heading "Proof tree:" ++ t.lines.map ("  " ++ ·))

/-- The lines of a record. -/
def Record.lines (r : Record) : List String :=
  ["  Step " ++ toString r.num ++ ": " ++ r.rule ++ "  [" ++ pathText r.path ++ "]",
    "    " ++ r.description,
    "    before: " ++ r.before,
    "    after:  " ++ r.after]

/-- The page of a step log. -/
def logPage (log : List Record) : String :=
  ofLines (heading "Proof steps:" ++
    (if log.isEmpty then ["  (no rules applied)"] else log.flatMap Record.lines))

namespace Verdict

/-- The verdict in words. -/
def conclusion (v : Verdict) : String :=
  if v.isValid then "  VALID: every branch of the negated goal closed -> theorem holds."
  else if v.inconclusive then "  INCONCLUSIVE: step limit reached with branches still open."
  else "  NOT PROVED: open branches remain after full expansion."

/-- The page of a verdict. -/
def page (v : Verdict) : String :=
  ofLines (heading ("TABLEAU for " ++ Entry.optionText v.goal) ++
    (v.closed.map fun l =>
      "  [closed] " ++ pathText l.path ++ ": " ++ l.closureReason.getD "None") ++
    (v.opened.map fun l =>
      "  [open]   " ++ pathText l.path ++ ": " ++ Entry.listText l.formulas) ++
    [bar,
      "  Closed: " ++ toString v.closed.length ++ " | Open: " ++ toString v.opened.length ++
        " | Steps: " ++ toString v.log.length,
      v.conclusion])

end Verdict

end Refutation
