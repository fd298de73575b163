import Refutation.CommandLine.Disk
import Refutation.CommandLine.Options
import Refutation.Report.Graph
import Refutation.Report.Page

/-!
# The program

What the program does for a command line is told as a plan: texts to print and files to
write, in order, and how it ends. A plan is carried out by the outer layer;
`Plan.perform` does so on paper, on a disk that is known. If a file cannot be written, the rest
of the plan is dropped.
-/

namespace Refutation.CommandLine

/-- One thing the program does. -/
inductive Action where
  /-- Print a text. -/
  | out (text : String)
  /-- Tell a line of complaint. -/
  | err (line : String)
  /-- Write a file. -/
  | write (path text : String)
  deriving DecidableEq, Repr

/-- How the program ends. -/
inductive Ending where
  | exit (code : Nat)
  /-- The attempt could not start. -/
  | fault (e : SetupError)
  deriving DecidableEq, Repr

/-- What the program does, and how it ends. -/
structure Plan where
  actions : List Action
  ending : Ending := .exit 0
  deriving DecidableEq, Repr

/-- A text filled up with spaces to a width. -/
def padded (width : Nat) (s : String) : String :=
  s ++ String.ofList (List.replicate (width - s.length) ' ')

/-- The list of sample problems. -/
def sampleList : String :=
  ofLines (Problem.samples.map fun p =>
    "  " ++ padded 20 p.name ++ " " ++ padded 32 p.formula ++ " " ++ p.description)

/-- The summary of all options. -/
def helpText : String :=
  ofLines [
    "usage: tableau [-h] [--problem NAME] [--list] [--steps STEPS]",
    "               [--witnesses POLICY] [--save SAVE] [--dot DOT] [--quiet]",
    "               [formula]",
    "",
    "Semantic tableau prover",
    "",
    "positional arguments:",
    "  formula              Formula to prove, e.g. \x22(A → B) → (¬B → ¬A)\x22",
    "",
    "options:",
    "  -h, --help           show this help message and exit",
    "  --problem NAME       Prove a registered sample problem instead",
    "  --list               List registered problems and exit",
    "  --steps STEPS        Max rule applications (default " ++ Budget.standard.text ++ ")",
    "  --witnesses POLICY   Witness caching: per variable name (default) or per",
    "                       quantifier occurrence and branch",
    "  --save SAVE          Save the proof (tree, steps, verdict) as JSON",
    "  --dot DOT            Export the proof tree as a DOT file",
    "  --quiet              Less output"]

/-- The plan for a command line that is refused. -/
def refuse (e : UsageError) : Plan :=
  { actions := [.err ("tableau: error: " ++ e.message)], ending := .exit 2 }

/-- A name that is not empty. -/
def given (s : Option String) : Option String :=
  s.filter (!·.isEmpty)

/-- What is done for an attempt. -/
def proveActions (o : Options) (a : Attempt) : List Action :=
  let run := a.run
  let v := run.attempt.verdict
  let progress := if o.quiet then [] else [.out (progressText run.outcomes)]
  let log := if o.quiet then [] else [.out (logPage v.log)]
  let dot :=
    match given o.dot with
    | none => []
    | some path => [.write path v.tree.graph, .out ("Graph exported to " ++ path ++ "\n")]
  let save :=
    match given o.save, v.save with
    | some path, .ok text => [.write path text, .out ("Proof saved to " ++ path ++ "\n")]
    | _, _ => []
  progress ++ [.out (treePage v.tree)] ++ log ++ [.out v.page] ++ dot ++ save

/-- The plan for a goal. -/
def provePlan (o : Options) (goal : Formula) : Plan :=
  let opening := .out ("Goal: " ++ goal.text ++ "\n")
  match Attempt.start goal o.steps o.witnesses with
  | .error e => { actions := [opening], ending := .fault e }
  | .ok a => { actions := opening :: proveActions o a }

/-- The text of the goal that options ask for. -/
def goalText? (o : Options) : Option String :=
  match o.problem with
  | some p => some p.formula
  | none => given o.formula

/-- The plan for options. -/
def planOf (o : Options) : Plan :=
  if o.list then { actions := [.out sampleList] }
  else
    match goalText? o with
    | none => refuse .noGoal
    | some text =>
      match Reading.parse text with
      | .error e => { actions := [.err ("Parse error: " ++ e.message)], ending := .exit 2 }
      | .ok goal =>
        match o.steps.limit? with
        | none => { actions := [], ending := .fault .noBudget }
        | some n => if n < 0 then refuse .negativeSteps else provePlan o goal

/-- The plan for a command line. -/
def plan (args : List String) : Plan :=
  match parse args with
  | .error .help => { actions := [.out helpText] }
  | .error (.error e) => refuse e
  | .ok o => planOf o

/-- What carrying out a plan leaves behind. -/
structure Effects where
  out : String := ""
  err : List String := []
  disk : Disk := {}
  /-- How it ended, if no file stood in the way. -/
  ending : Except WriteError Ending

/-- Carry out actions, up to the first that fails. -/
def performAll (ending : Ending) (out : String) (err : List String) (disk : Disk) :
    List Action → Effects
  | [] => { out, err, disk, ending := .ok ending }
  | .out text :: rest => performAll ending (out ++ text) err disk rest
  | .err line :: rest => performAll ending out (err ++ [line]) disk rest
  | .write path text :: rest =>
    match disk.write path text with
    | .error e => { out, err, disk, ending := .error e }
    | .ok disk => performAll ending out err disk rest

/-- Carry out a plan on a disk. -/
def Plan.perform (p : Plan) (disk : Disk) : Effects :=
  performAll p.ending "" [] disk p.actions

end Refutation.CommandLine
