import Refutation.Tree.Basic

/-!
# Trees in storage

A stored node has a place, and what is stored at one place is one node. Replacing a node
copies the nodes above it, to places that are free, and shares everything else with the old
tree. The way to the node is found by trying the children from left to right: a child that
is at its old place after the try counts as unchanged.

* `Stored.tree`: the tree that is stored.
* `Stored.find?`, `Stored.replace`: search and replacement by number.
* `Tree.store`: a tree put at new places.
-/

namespace Refutation

/-- A proof tree in storage. -/
inductive Stored where
  | node (place : Nat) (label : Label) (children : List Stored)
  deriving Repr

namespace Stored

/-- The place of the root. -/
def place : Stored → Nat
  | .node a _ _ => a

/-- The number of the root. -/
def id : Stored → Int
  | .node _ l _ => l.id

/-- The subtrees of the root. -/
def children : Stored → List Stored
  | .node _ _ ts => ts

/-- Induction over stored trees, with the hypothesis for every child. -/
@[elab_as_elim] theorem induct {P : Stored → Prop}
    (node : ∀ a l ts, (∀ t ∈ ts, P t) → P (.node a l ts)) (t : Stored) : P t := by
  refine @Stored.rec P (fun ts => ∀ t ∈ ts, P t) node ?_ ?_ t
  · intro t ht
    cases ht
  · intro t ts ht hts u hu
    rcases List.mem_cons.1 hu with rfl | hu
    · exact ht
    · exact hts u hu

mutual

/-- The tree that is stored. -/
def tree : Stored → Tree
  | .node _ l ts => .node l (trees ts)
termination_by structural t => t

/-- The trees that are stored. -/
def trees : List Stored → List Tree
  | [] => []
  | t :: ts => tree t :: trees ts
termination_by structural ts => ts

end

mutual

/-- All subtrees, parents before children, from left to right. -/
def nodes : Stored → List Stored
  | .node a l ts => .node a l ts :: nodesList ts
termination_by structural t => t

/-- All subtrees of several trees. -/
def nodesList : List Stored → List Stored
  | [] => []
  | t :: ts => nodes t ++ nodesList ts
termination_by structural ts => ts

end

/-- The first node in preorder with a number. -/
def find? (t : Stored) (id : Int) : Option Stored :=
  t.nodes.find? (·.id == id)

mutual

/-- The tree with `new` in place of a node with a number, and the first place that is free
after it. Copies are put at the places from `free` on. -/
def replace : Stored → Int → Stored → Nat → Stored × Nat
  | .node a l ts, id, new, free =>
    if l.id = id then (new, free)
    else
      match replaceIn? ts id new free with
      | some r => (.node r.2 l r.1, r.2 + 1)
      | none => (.node a l ts, free)
termination_by structural t => t

/-- Several trees, the first of them changed that a replacement does not leave at its place,
if there is one. -/
def replaceIn? : List Stored → Int → Stored → Nat → Option (List Stored × Nat)
  | [], _, _, _ => none
  | t :: ts, id, new, free =>
    let r := replace t id new free
    if r.1.place = t.place then (replaceIn? ts id new free).map fun r => (t :: r.1, r.2)
    else some (r.1 :: ts, r.2)
termination_by structural ts => ts

end

end Stored

namespace Tree

mutual

/-- The tree with its nodes put at the places from `free` on, and the first place that is
free after it. -/
def store : Tree → Nat → Stored × Nat
  | .node l ts, free =>
    let r := storeList ts (free + 1)
    (.node free l r.1, r.2)
termination_by structural t => t

/-- Several trees, stored one after the other. -/
def storeList : List Tree → Nat → List Stored × Nat
  | [], free => ([], free)
  | t :: ts, free =>
    let r := store t free
    let rs := storeList ts r.2
    (r.1 :: rs.1, rs.2)
termination_by structural ts => ts

end

end Tree

end Refutation
