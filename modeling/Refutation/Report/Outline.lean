import Refutation.Tree.Basic

/-!
# Outlines

A tree as lines of text, one for each node in preorder, indented by two spaces for each
level.
-/

namespace Refutation

namespace Label

/-- The number and the formulas of a node. -/
def title (l : Label) : String :=
  "#" ++ toString l.id ++ " " ++ Entry.listText l.formulas

/-- A node in short. -/
def brief (l : Label) : String :=
  "TableauNode(" ++ l.title ++ ", " ++ l.status.name ++ ")"

/-- The closure reason, if there is one that is not empty. -/
def reason? (l : Label) : Option String :=
  l.closureReason.filter (!·.isEmpty)

/-- The rule applied to a node and the formula it was applied to. -/
def expansion (l : Label) (between : String) : String :=
  l.rule.getD "None" ++ between ++ Entry.optionText l.origin

end Label

namespace Tree

/-- The line of a node, without its indentation. -/
def line (t : Tree) : String :=
  let l := t.label
  let shown := if t.isLeaf then Entry.listText l.formulas else l.expansion ": "
  let mark :=
    match l.reason? with
    | some r => if l.status = .closedLeaf then "  ✗ " ++ r else ""
    | none => ""
  "[" ++ l.status.name ++ "] #" ++ toString l.id ++ " " ++ shown ++ mark

/-- The indentation of a level. -/
def indent (level : Nat) : String :=
  String.ofList (List.replicate (2 * level) ' ')

mutual

/-- The lines of a tree at a level. -/
def linesAt (level : Nat) : Tree → List String
  | .node l ts => (indent level ++ line (.node l ts)) :: linesIn (level + 1) ts
termination_by structural t => t

/-- The lines of several trees at a level. -/
def linesIn (level : Nat) : List Tree → List String
  | [] => []
  | t :: ts => linesAt level t ++ linesIn level ts
termination_by structural ts => ts

end

/-- The lines of a tree. -/
def lines (t : Tree) : List String :=
  t.linesAt 0

end Tree

end Refutation
