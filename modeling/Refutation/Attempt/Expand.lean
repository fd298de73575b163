import Refutation.Attempt.Basic
import Refutation.Closure
import Refutation.Formula.Substitution

/-!
# Expanding a formula

`expand` applies a rule to a formula on a node. The formula is taken off the node. A rule
that does not branch closes the node in place if the new formulas clash, and otherwise
gives it one open child; a branching rule gives it two children, each closed or open. The
step is described in a record.

A caller can also ask for an expansion by the name of a rule (`Request`); what it asks for
is then checked piece by piece.

An expansion that is refused may have used up node numbers and witnesses before (`Refusal`).
-/

namespace Refutation

/-- Why a formula cannot be expanded. -/
inductive ExpandError where
  /-- The node does not hold the formula. -/
  | notOnNode
  /-- No rule has this name. -/
  | unknownRule (name : String)
  /-- A branching rule needs two parts. -/
  | wrongParts
  /-- The witness in the table has no name. -/
  | namelessWitness
  /-- A plain value stands where a formula is needed. -/
  | notFormula (e : NotFormula)
  /-- The budget of the attempt is no number. -/
  | noBudget
  deriving DecidableEq, Repr

/-- An expansion that was refused, and what is left of the supply. -/
structure Refusal where
  cause : ExpandError
  supply : Supply
  deriving DecidableEq, Repr

/-- What an expansion gives: the node's new tree, the record, and what is left of the
supply. -/
structure Expansion where
  tree : Tree
  record : Record
  supply : Supply
  deriving DecidableEq, Repr

/-- The rule name of a child that is closed from the start. -/
def closureRule : String := "Closure"

/-- The rule description of a child that is closed from the start. -/
def closureDescription : String := "Contradiction found"

namespace Expand

/-- The label of a node whose formula was expanded into children. -/
def expandedLabel (l : Label) (m : Match) (num : Int) : Label :=
  { l with
    formulas := [], status := .inner, rule := some m.rule.name,
    ruleDescription := some m.rule.description, origin := m.formula.present, step := num }

/-- The label of a node that is closed in place. -/
def closedLabel (l : Label) (m : Match) (num : Int) (formulas : List Entry) (reason : String)
    (insts : List Instantiation) : Label :=
  { l with
    formulas, closed := true, closureReason := some reason, status := .closedLeaf,
    rule := some m.rule.name, ruleDescription := some m.rule.description, instantiations := insts,
    origin := m.formula.present, step := num }

/-- The label of the single open child. -/
def childLabel (l : Label) (m : Match) (num id : Int) (formulas : List Entry)
    (insts : List Instantiation) : Label :=
  { id, formulas, path := l.path, instantiations := insts, origin := m.formula.present, step := num }

/-- The label of one of two children, closed if there is a reason. -/
def branchLabel (l : Label) (m : Match) (num id : Int) (formulas : List Entry) (turn : String)
    (reason : Option String) : Label :=
  let child : Label :=
    { id, formulas, path := l.path ++ [turn], instantiations := l.instantiations,
      origin := m.formula.present, step := num }
  match reason with
  | none => child
  | some reason =>
    { child with
      closed := true, closureReason := some reason, status := .closedLeaf,
      rule := some closureRule, ruleDescription := some closureDescription }

/-- Whether formulas clash. -/
def closure (formulas : List Entry) (s : Supply) : Except Refusal (Option String) :=
  (Entry.contradiction formulas).mapError fun e => ⟨.notFormula e, s⟩

/-- The tree after a rule that does not branch. -/
def extend (t : Tree) (m : Match) (num : Int) (formulas : List Entry)
    (insts : List Instantiation) (s : Supply) : Except Refusal (Tree × Supply) := do
  match ← closure formulas s with
  | some reason => return (.node (closedLabel t.label m num formulas reason insts) t.children, s)
  | none =>
    let (id, s) := s.takeId
    return (.node (expandedLabel t.label m num)
      [.node (childLabel t.label m num id formulas insts) []], s)

/-- The tree after a branching rule. -/
def branch (t : Tree) (m : Match) (num : Int) (left right : List Entry) (s : Supply) :
    Except Refusal (Tree × Supply) := do
  let leftReason ← closure left s
  let (i, s) := s.takeId
  let rightReason ← closure right s
  let (j, s) := s.takeId
  return (.node (expandedLabel t.label m num)
    [.node (branchLabel t.label m num i left "left" leftReason) [],
      .node (branchLabel t.label m num j right "right" rightReason) []], s)

/-- The record of a step. -/
def record (t : Tree) (m : Match) (num : Int) (detail after : String)
    (insts : List Instantiation) : Record :=
  { num, rule := m.rule.name, description := m.rule.description ++ detail,
    before := Entry.listText t.label.formulas, after, path := t.label.path,
    instantiations := insts, nodeId := t.id, formula := m.formula.text }

/-- A body with a witness for the bound variable, if one is named. -/
def instantiated (body : Formula) (bound : Option String) (witness : Formula) : Formula :=
  match bound with
  | none => body
  | some x => body.subst x witness

end Expand

open Expand in
/-- Apply a rule to a formula on a node. -/
def expand (policy : WitnessPolicy) (s : Supply) (t : Tree) (num : Int) (m : Match) :
    Except Refusal Expansion :=
  if m.formula ∈ t.label.formulas then
    let rest := t.label.formulas.erase m.formula
    let target := ": " ++ m.formula.text
    match m.move with
    | .replace parts => do
      let formulas := parts ++ rest
      let (tree, s) ← extend t m num formulas t.label.instantiations s
      return ⟨tree, record t m num (target ++ " gives " ++ Entry.listText parts)
        (Entry.listText formulas) [], s⟩
    | .split left right => do
      let (tree, s) ← branch t m num (left :: rest) (right :: rest) s
      return ⟨tree, record t m num (target ++ " splits into " ++ left.text ++ " | " ++ right.text)
        ("Left: " ++ Entry.listText (left :: rest) ++ " | Right: " ++
          Entry.listText (right :: rest)) [], s⟩
    | .instantiate x τ body keep =>
      let (c, s) := s.witness (policy.key x m.formula.text t.label.path) τ
      match c.name?, body.asFormula with
      | none, _ => .error ⟨.namelessWitness, s⟩
      | _, .error e => .error ⟨.notFormula e, s⟩
      | some name, .ok body => do
        let inst : Entry := instantiated body x c
        let formulas := if keep then m.formula :: inst :: rest else inst :: rest
        let pair := Instantiation.of x name
        let (tree, s) ← extend t m num formulas (t.label.instantiations ++ [pair]) s
        return ⟨tree, record t m num
          (" [" ++ Instantiation.boundText x ++ " → " ++ name ++ "]" ++ target ++ " gives " ++
            inst.text)
          (Entry.listText formulas) [pair], s⟩
  else .error ⟨.notOnNode, s⟩

/-- An expansion a caller asks for by the name of a rule. -/
structure Request where
  rule : String
  formula : Entry
  parts : List Entry := []
  bound : Option String := none
  type : Ty := .unknown
  body : Entry := .plain .null
  keep : Bool := false
  deriving DecidableEq, Repr

/-- What a rule does with the pieces of a request; a branching rule needs two parts. -/
def Request.move? (r : Request) : Family → Option Move
  | .alpha => some (.replace r.parts)
  | .beta =>
    match r.parts with
    | [left, right] => some (.split left right)
    | _ => none
  | .gamma | .delta => some (.instantiate r.bound r.type r.body r.keep)

/-- Carry out a request. The formula has to be on the node; then the name has to be that of
a rule; then the pieces the rule needs have to be there. -/
def Request.expand (r : Request) (policy : WitnessPolicy) (s : Supply) (t : Tree) (num : Int) :
    Except Refusal Expansion :=
  if r.formula ∈ t.label.formulas then
    match Rule.ofName? r.rule with
    | none => .error ⟨.unknownRule r.rule, s⟩
    | some rule =>
      match r.move? rule.family with
      | none => .error ⟨.wrongParts, s⟩
      | some move => Refutation.expand policy s t num ⟨rule, r.formula, move⟩
  else .error ⟨.notOnNode, s⟩

end Refutation
