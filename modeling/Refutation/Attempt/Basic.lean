import Refutation.Tree.Basic

/-!
# Proof attempts

An attempt to prove a goal is its proof tree together with the log of the steps taken,
the supply of node numbers and witnesses, and a budget of steps. It starts from one open
node that holds the negated goal.

A witness stands for a bound variable. Witnesses are kept in a table, and the policy of an
attempt tells by which key: the name of the variable, or the quantified formula and the
branch on which it was expanded.
-/

namespace Refutation

/-- How witnesses are shared; two policies are known, and any value can be asked for. -/
structure WitnessPolicy where
  value : Json
  deriving DecidableEq, Repr

namespace WitnessPolicy

/-- The policy with a name. -/
def named (name : String) : WitnessPolicy := ⟨.str name⟩

/-- The names of the policies an attempt may start with. -/
def knownNames : List String := ["name", "occurrence"]

/-- One witness for each name of a variable. -/
def byName : WitnessPolicy := named "name"

/-- One witness for each quantified formula on a branch. -/
def byOccurrence : WitnessPolicy := named "occurrence"

/-- The policies an attempt may start with. -/
def known : List WitnessPolicy := [byName, byOccurrence]

/-- The key of a witness for a bound variable, if one is named, of a formula, given by its
text, that is expanded on a branch. -/
def key (p : WitnessPolicy) (bound : Option String) (formula : String) (path : List String) :
    Option String :=
  if p = byOccurrence then some (formula ++ "@" ++ "/".intercalate path) else bound

end WitnessPolicy

/-- A budget of steps. -/
inductive Budget where
  | steps (n : Int)
  /-- A value that is no integer. -/
  | other (v : Json)
  deriving DecidableEq, Repr

namespace Budget

/-- The budget when none is given. -/
def standard : Budget := .steps 50

/-- The number of steps a budget allows; a truth value counts as a number. -/
def limit? : Budget → Option Int
  | .steps n => some n
  | .other (.bool true) => some 1
  | .other (.bool false) => some 0
  | .other _ => none

/-- The document of a budget. -/
def toJson : Budget → Json
  | .steps n => .int n
  | .other v => v

/-- The budget of a document. -/
def ofJson : Json → Budget
  | .int n => .steps n
  | v => .other v

/-- The text of a budget. -/
def text (b : Budget) : String :=
  b.toJson.literal

end Budget

/-- Node numbers and witnesses handed out so far. -/
structure Supply where
  /-- The next node number. -/
  nextId : Int := 1
  /-- How many witnesses were minted. -/
  minted : Int := 0
  /-- The witnesses by key, in the order in which they were minted or loaded. A witness for
  a variable without a name may have no key. -/
  witnesses : List (Option String × Formula) := []
  deriving DecidableEq, Repr

namespace Supply

/-- The name of the `n`-th witness. -/
def witnessName (n : Int) : String :=
  "c" ++ toString n

/-- Hand out a node number. -/
def takeId (s : Supply) : Int × Supply :=
  (s.nextId, { s with nextId := s.nextId + 1 })

/-- The witness for a key, minted if the key is new. -/
def witness (s : Supply) (key : Option String) (τ : Ty) : Formula × Supply :=
  match s.witnesses.lookup key with
  | some w => (w, s)
  | none =>
    let c := .const (witnessName (s.minted + 1)) τ
    (c, { s with minted := s.minted + 1, witnesses := s.witnesses ++ [(key, c)] })

/-- The names of the witnesses by key, if all of them have names. -/
def names? (s : Supply) : Option (List (Option String × String)) :=
  s.witnesses.mapM fun w => w.2.name?.map (w.1, ·)

end Supply

/-- An entry of the step log. -/
structure Record where
  num : Int
  rule : String
  description : String
  before : String
  after : String
  path : List String := []
  instantiations : List Instantiation := []
  nodeId : Int := 0
  formula : String := ""
  deriving DecidableEq, Repr

/-- A proof attempt. -/
structure Attempt where
  root : Tree
  goal : Option Entry := none
  supply : Supply := {}
  log : List Record := []
  /-- The number of steps taken. -/
  step : Int := 0
  halted : Bool := false
  haltReason : String := ""
  stepLimitReached : Bool := false
  maxSteps : Budget := .standard
  policy : WitnessPolicy := .byName
  deriving DecidableEq, Repr

/-- Why an attempt cannot start. -/
inductive SetupError where
  /-- The budget is negative. -/
  | negativeBudget (n : Int)
  /-- The budget is no number. -/
  | noBudget
  /-- The policy is not known. -/
  | unknownPolicy (p : WitnessPolicy)
  deriving DecidableEq, Repr

/-- The wording of each refusal. -/
def SetupError.message : SetupError → String
  | .negativeBudget n => "max_steps must be >= 0, got " ++ toString n
  | .noBudget => "max_steps must be a number"
  | .unknownPolicy p =>
    "unknown witness policy " ++ p.value.literal ++ "; expected one of " ++
      ", ".intercalate WitnessPolicy.knownNames

namespace Attempt

/-- The attempt itself, if its budget and its policy are admissible. -/
def checked (a : Attempt) : Except SetupError Attempt :=
  match a.maxSteps.limit? with
  | none => .error .noBudget
  | some n =>
    if n < 0 then .error (.negativeBudget n)
    else if a.policy ∈ WitnessPolicy.known then .ok a
    else .error (.unknownPolicy a.policy)

/-- The label of the node an attempt starts from. -/
def rootLabel (goal : Entry) : Label :=
  { id := 0, formulas := [goal.negate], origin := goal.present,
    ruleDescription := some "Negate goal for contradiction" }

/-- The attempt before its first step. -/
def initial (goal : Entry) (maxSteps : Budget) (policy : WitnessPolicy) : Attempt :=
  { root := .node (rootLabel goal) [], goal := goal.present, maxSteps, policy }

/-- The attempt before its first step, if the budget and the policy are admissible. -/
def start (goal : Entry) (maxSteps : Budget) (policy : WitnessPolicy) :
    Except SetupError Attempt :=
  (initial goal maxSteps policy).checked

end Attempt

end Refutation
