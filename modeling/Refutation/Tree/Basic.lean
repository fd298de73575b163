import Refutation.Rule

/-!
# Proof trees

A node of a proof tree carries a label: the formulas it still holds, whether it is closed
and why, the rule that was applied to it, and where it stands. A tree is a label with any
number of subtrees. Nodes are addressed by their number; if several have one number, the
first in preorder is meant.

* `Tree.nodes`: all subtrees in preorder.
* `Tree.find?`, `Tree.replace`: the node with a number, and the tree with another in its
  place.
* `Tree.next?`: the first node that holds a formula to expand.
* `Tree.classify`: the tree with every status told by its shape.
* `Tree.leaves`: the labels of the leaves from left to right.
-/

namespace Refutation

/-- What a node is shown as; three values are in use, others can be loaded. -/
structure Status where
  name : String
  deriving DecidableEq, Repr

namespace Status

/-- A leaf that may still hold formulas to expand. -/
def openLeaf : Status := ⟨"open"⟩

/-- A leaf whose formulas are contradictory. -/
def closedLeaf : Status := ⟨"closed"⟩

/-- A node that was expanded. -/
def inner : Status := ⟨"intermediate"⟩

end Status

/-- A variable and its witness, written as a list; loaded documents may list other things. -/
abbrev Instantiation := List Json

namespace Instantiation

/-- The instantiation of a variable, if one is named, by a witness. -/
def of (bound : Option String) (witness : String) : Instantiation :=
  [.ofOption .str bound, .str witness]

/-- The text of a variable that may have no name. -/
def boundText (bound : Option String) : String :=
  bound.getD Json.null.literal

/-- The text of an instantiation. -/
def text (i : Instantiation) : String :=
  " := ".intercalate (i.map fun
    | .str s => s
    | j => j.literal)

end Instantiation

/-- What a node of a proof tree carries. -/
structure Label where
  id : Int
  /-- The formulas the node holds, and plain values put among them. -/
  formulas : List Entry
  closed : Bool := false
  rule : Option String := none
  ruleDescription : Option String := none
  /-- The number of the step that made the node what it is. -/
  step : Int := 0
  /-- The turns taken from the root. -/
  path : List String := ["root"]
  /-- The variables instantiated on the way here, and their witnesses. -/
  instantiations : List Instantiation := []
  status : Status := .openLeaf
  closureReason : Option String := none
  /-- The formula expanded at the node, or the one it came from. -/
  origin : Option Entry := none
  deriving DecidableEq, Repr

/-- A proof tree. -/
inductive Tree where
  | node (label : Label) (children : List Tree)
  deriving Repr

namespace Tree

mutual

/-- Equality of trees is decidable. -/
def decEq : (s t : Tree) → Decidable (s = t)
  | .node a ss, .node b ts =>
    if h : a = b then
      match decEqList ss ts with
      | isTrue h' => isTrue (by rw [h, h'])
      | isFalse h' => isFalse (by intro e; injection e; contradiction)
    else isFalse (by intro e; injection e; contradiction)
termination_by structural s => s

/-- Equality of lists of trees is decidable. -/
def decEqList : (ss ts : List Tree) → Decidable (ss = ts)
  | [], [] => isTrue rfl
  | [], _ :: _ => isFalse nofun
  | _ :: _, [] => isFalse nofun
  | s :: ss, t :: ts =>
    match decEq s t with
    | isFalse h => isFalse (by intro e; injection e; contradiction)
    | isTrue h =>
      match decEqList ss ts with
      | isTrue h' => isTrue (by rw [h, h'])
      | isFalse h' => isFalse (by intro e; injection e; contradiction)
termination_by structural ss => ss

end

instance : DecidableEq Tree := decEq

/-- The label of the root. -/
def label : Tree → Label
  | .node l _ => l

/-- The subtrees of the root. -/
def children : Tree → List Tree
  | .node _ ts => ts

/-- The number of the root. -/
def id (t : Tree) : Int :=
  t.label.id

/-- Whether the tree is a single node. -/
def isLeaf (t : Tree) : Bool :=
  t.children.isEmpty

/-- Induction over trees, with the hypothesis for every child. -/
@[elab_as_elim] theorem induct {P : Tree → Prop}
    (node : ∀ l ts, (∀ t ∈ ts, P t) → P (.node l ts)) (t : Tree) : P t := by
  refine @Tree.rec P (fun ts => ∀ t ∈ ts, P t) node ?_ ?_ t
  · intro t ht
    cases ht
  · intro t ts ht hts u hu
    rcases List.mem_cons.1 hu with rfl | hu
    · exact ht
    · exact hts u hu

mutual

/-- All subtrees, parents before children, from left to right. -/
def nodes : Tree → List Tree
  | .node l ts => .node l ts :: nodesList ts
termination_by structural t => t

/-- All subtrees of several trees. -/
def nodesList : List Tree → List Tree
  | [] => []
  | t :: ts => nodes t ++ nodesList ts
termination_by structural ts => ts

end

/-- The first node in preorder with a number. -/
def find? (t : Tree) (id : Int) : Option Tree :=
  t.nodes.find? (·.id == id)

mutual

/-- The tree with `new` in place of the first node with a number, if there is one. -/
def replace? : Tree → Int → Tree → Option Tree
  | .node l ts, id, new => if l.id = id then some new else (replaceIn? ts id new).map (.node l)
termination_by structural t => t

/-- Several trees, with `new` in place of the first node with a number, if there is one. -/
def replaceIn? : List Tree → Int → Tree → Option (List Tree)
  | [], _, _ => none
  | t :: ts, id, new =>
    match replace? t id new with
    | some t' => some (t' :: ts)
    | none => (replaceIn? ts id new).map (t :: ·)
termination_by structural ts => ts

end

/-- The tree with `new` in place of the first node with a number; unchanged if there is
none. This is how a tree looks after a replacement by a node that was built for it. -/
def replace (t : Tree) (id : Int) (new : Tree) : Tree :=
  (t.replace? id new).getD t

mutual

/-- The first node in preorder, closed subtrees left out, that holds a formula with a
rule, and the first such formula on it. -/
def next? : Tree → Option (Tree × Match)
  | .node l ts =>
    if l.closed then none
    else
      match l.formulas.findSome? Entry.match? with
      | some m => some (.node l ts, m)
      | none => nextIn? ts
termination_by structural t => t

/-- The first such node of several trees. -/
def nextIn? : List Tree → Option (Tree × Match)
  | [] => none
  | t :: ts => (next? t).or (nextIn? ts)
termination_by structural ts => ts

end

mutual

/-- The tree with every status told by its shape: a node with children is inner, a leaf is
closed or open as its flag says. -/
def classify : Tree → Tree
  | .node l [] => .node { l with status := if l.closed then .closedLeaf else .openLeaf } []
  | .node l (t :: ts) => .node { l with status := .inner } (classifyList (t :: ts))
termination_by structural t => t

/-- Several trees, classified. -/
def classifyList : List Tree → List Tree
  | [] => []
  | t :: ts => classify t :: classifyList ts
termination_by structural ts => ts

end

mutual

/-- The labels of the leaves, from left to right. -/
def leaves : Tree → List Label
  | .node l [] => [l]
  | .node _ (t :: ts) => leavesList (t :: ts)
termination_by structural t => t

/-- The labels of the leaves of several trees. -/
def leavesList : List Tree → List Label
  | [] => []
  | t :: ts => leaves t ++ leavesList ts
termination_by structural ts => ts

end

/-- The leaves that are closed. -/
def closedLeaves (t : Tree) : List Label :=
  t.leaves.filter (·.closed)

/-- The leaves that are not closed. -/
def openLeaves (t : Tree) : List Label :=
  t.leaves.filter (!·.closed)

end Tree

end Refutation
