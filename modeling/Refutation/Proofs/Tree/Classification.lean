import Mathlib.Data.List.Perm.Basic
import Refutation.Proofs.Tree.Relabel
import Refutation.Verdict

/-!
# Classification and the leaves of a verdict

A verdict is read off a tree in two steps: statuses are told by the shape of the tree, and then the
leaves are collected as closed or open. A tree that was loaded need not be one that a run builds. A
closed node may have children, and its status may be any text. On all trees classification writes
statuses and nothing else, and the leaves that are collected are the nodes without children, in the
order in which the nodes are listed.

* `relabel_classify`: classification is not seen by what does not look at statuses.
* `leaves_eq_filter_nodes`: **the leaves are the nodes without children, in preorder.**
* `collect_eq`: collecting the leaves child by child gives the same two lists.
* `verdict_tells_leaves`: **classification and verdict agree with the tree.**
-/

namespace Refutation.Tree

/-- The status that the shape of a node tells. -/
def shapeStatus (t : Tree) : Status :=
  if t.isLeaf then if t.label.closed then .closedLeaf else .openLeaf else .inner

/-- The nodes without children, in preorder. -/
def ends (t : Tree) : List Tree :=
  t.nodes.filter isLeaf

mutual

/-- The closed leaves and the open leaves, collected together. -/
def collect : Tree → List Label × List Label
  | .node l [] => if l.closed then ([l], []) else ([], [l])
  | .node _ (t :: ts) => collectFrom ([], []) (t :: ts)
termination_by structural t => t

/-- The leaves found so far, with those of several trees added one tree after the other. -/
def collectFrom (found : List Label × List Label) : List Tree → List Label × List Label
  | [] => found
  | t :: ts => collectFrom (found.1 ++ (collect t).1, found.2 ++ (collect t).2) ts
termination_by structural ts => ts

end

variable {h : Label → Label} {t u : Tree}

/-! ## Statuses -/

theorem classify_node (l : Label) (ts : List Tree) :
    (node l ts).classify = node { l with status := (node l ts).shapeStatus } (ts.map classify) := by
  cases ts with
  | nil => rfl
  | cons t ts => rw [classify, classifyList_eq_map]; rfl

theorem isLeaf_classify (t : Tree) : t.classify.isLeaf = t.isLeaf := by
  cases t with
  | node l ts => cases ts <;> rfl

/-- Nothing but the status of the root changes at the root. -/
theorem label_classify (t : Tree) :
    t.classify.label = { t.label with status := t.shapeStatus } := by
  cases t with
  | node l ts => rw [classify_node]; rfl

theorem shapeStatus_classify (t : Tree) : t.classify.shapeStatus = t.shapeStatus := by
  unfold shapeStatus
  rw [isLeaf_classify, label_classify]

theorem nodes_classify (t : Tree) : t.classify.nodes = t.nodes.map classify := by
  induction t using induct with
  | node l ts ih =>
    rw [classify_node, nodes, nodes, nodesList_eq_flatMap, nodesList_eq_flatMap, List.map_cons,
      classify_node, List.flatMap_map, List.map_flatMap]
    exact congrArg _ (List.flatMap_congr ih)

/-- After classification every status is that which the shape tells. -/
theorem status_of_mem_classify (hu : u ∈ t.classify.nodes) : u.label.status = u.shapeStatus := by
  rw [nodes_classify] at hu
  obtain ⟨v, -, rfl⟩ := List.mem_map.1 hu
  rw [label_classify, shapeStatus_classify]

/-- **Classification is not seen by what does not look at statuses.** -/
theorem relabel_classify (hh : ∀ l st, h { l with status := st } = h l) (t : Tree) :
    t.classify.relabel h = t.relabel h := by
  induction t using induct with
  | node l ts ih =>
    rw [classify_node, relabel_node, relabel_node, hh, List.map_map]
    exact congrArg _ (List.map_congr_left ih)

theorem classify_classify (t : Tree) : t.classify.classify = t.classify := by
  induction t using induct with
  | node l ts ih =>
    have hroot := shapeStatus_classify (node l ts)
    rw [classify_node] at hroot
    rw [classify_node, classify_node, hroot, List.map_map]
    exact congrArg _ (List.map_congr_left ih)

/-! ## Leaves -/

/-- **The leaves are the nodes without children, in preorder.** -/
theorem leaves_eq_filter_nodes (t : Tree) : t.leaves = t.ends.map label := by
  induction t using induct with
  | node l ts ih =>
    cases ts with
    | nil => rfl
    | cons t ts =>
      have hinner : ¬(node l (t :: ts)).isLeaf = true := Bool.false_ne_true
      have hroot : ends (node l (t :: ts)) = (t :: ts).flatMap ends := by
        rw [ends, nodes, nodesList_eq_flatMap, List.filter_cons_of_neg hinner, List.filter_flatMap]
        rfl
      rw [leaves_node l (by simp), hroot, List.map_flatMap]
      exact List.flatMap_congr ih

theorem leaves_classify (t : Tree) :
    t.classify.leaves =
      t.leaves.map fun l => { l with status := if l.closed then .closedLeaf else .openLeaf } := by
  induction t using induct with
  | node l ts ih =>
    cases ts with
    | nil => rfl
    | cons t ts =>
      rw [classify_node, leaves_node _ (by simp), leaves_node l (by simp), List.map_flatMap,
        List.flatMap_map]
      exact List.flatMap_congr ih

/-- What does not look at statuses finds the same leaves after classification. -/
theorem map_filter_leaves_classify {α : Type} {g : Label → α} {keep : Label → Bool}
    (hg : ∀ l st, g { l with status := st } = g l)
    (hkeep : ∀ l st, keep { l with status := st } = keep l) (t : Tree) :
    (t.classify.leaves.filter keep).map g = (t.leaves.filter keep).map g := by
  rw [leaves_classify, List.filter_map, List.map_map]
  have hkeep' : (keep ∘ fun l : Label =>
      { l with status := if l.closed then .closedLeaf else .openLeaf }) = keep :=
    funext fun l => hkeep l _
  rw [hkeep']
  exact List.map_congr_left fun l _ => hg l _

theorem closedLeaves_node (l : Label) {ts : List Tree} (hts : ts ≠ []) :
    (node l ts).closedLeaves = ts.flatMap closedLeaves := by
  rw [closedLeaves, leaves_node l hts, List.filter_flatMap]
  rfl

theorem openLeaves_node (l : Label) {ts : List Tree} (hts : ts ≠ []) :
    (node l ts).openLeaves = ts.flatMap openLeaves := by
  rw [openLeaves, leaves_node l hts, List.filter_flatMap]
  rfl

theorem collectFrom_eq {ts : List Tree} (found : List Label × List Label)
    (hts : ∀ t ∈ ts, t.collect = (t.closedLeaves, t.openLeaves)) :
    collectFrom found ts =
      (found.1 ++ ts.flatMap closedLeaves, found.2 ++ ts.flatMap openLeaves) := by
  induction ts generalizing found with
  | nil => simp [collectFrom]
  | cons t ts ih =>
    obtain ⟨ht, hts⟩ := List.forall_mem_cons.1 hts
    rw [collectFrom, ih _ hts, ht, List.flatMap_cons, List.flatMap_cons, List.append_assoc,
      List.append_assoc]

/-- **The leaves collected child by child are the closed ones and the open ones.** -/
theorem collect_eq (t : Tree) : t.collect = (t.closedLeaves, t.openLeaves) := by
  induction t using induct with
  | node l ts ih =>
    cases ts with
    | nil => cases hl : l.closed <;> simp [collect, closedLeaves, openLeaves, leaves, hl]
    | cons t ts =>
      rw [collect, collectFrom_eq _ ih, closedLeaves_node l (by simp), openLeaves_node l (by simp)]
      rfl

/-! ## The verdict -/

/-- **Classification and verdict agree with the tree**, whatever the tree at the root of an attempt
is. Classification keeps the shape of the tree and everything on its nodes but the statuses, which
it tells by the shape; a second time it changes nothing. The leaves that are collected, before and
after it, have the same numbers. They are the nodes without children that are closed and those that
are not, both in preorder, and each node without children is among them once. So the goal counts as
valid exactly if all nodes without children are closed, and there are as many branches as there are
such nodes. -/
theorem verdict_tells_leaves (t : Tree) (a : Attempt) :
    (∀ st, t.classify.relabel (fun l => { l with status := st }) =
      t.relabel fun l => { l with status := st }) ∧
    (∀ u ∈ t.classify.nodes, u.label.status = u.shapeStatus) ∧
    t.classify.classify = t.classify ∧
    t.collect = (t.closedLeaves, t.openLeaves) ∧
    t.classify.closedLeaves.map Label.id = t.closedLeaves.map Label.id ∧
    t.classify.openLeaves.map Label.id = t.openLeaves.map Label.id ∧
    t.closedLeaves = (t.ends.filter (·.label.closed)).map label ∧
    t.openLeaves = (t.ends.filter (!·.label.closed)).map label ∧
    (t.closedLeaves ++ t.openLeaves).Perm (t.ends.map label) ∧
    (({ a with root := t } : Attempt).verdict.isValid = true ↔
      ∀ u ∈ t.nodes, u.isLeaf = true → u.label.closed = true) ∧
    ({ a with root := t } : Attempt).verdict.branches = t.ends.length := by
  have hclosed : t.closedLeaves = (t.ends.filter (·.label.closed)).map label := by
    rw [closedLeaves, leaves_eq_filter_nodes, List.filter_map]
    rfl
  have hopen : t.openLeaves = (t.ends.filter (!·.label.closed)).map label := by
    rw [openLeaves, leaves_eq_filter_nodes, List.filter_map]
    rfl
  have hidsClosed : t.classify.closedLeaves.map Label.id = t.closedLeaves.map Label.id :=
    map_filter_leaves_classify (fun _ _ => rfl) (fun _ _ => rfl) t
  have hidsOpen : t.classify.openLeaves.map Label.id = t.openLeaves.map Label.id :=
    map_filter_leaves_classify (fun _ _ => rfl) (fun _ _ => rfl) t
  have hperm : (t.closedLeaves ++ t.openLeaves).Perm (t.ends.map label) := by
    rw [← leaves_eq_filter_nodes]
    exact List.filter_append_perm (·.closed) t.leaves
  refine ⟨fun st => relabel_classify (fun _ _ => rfl) t, fun u => status_of_mem_classify,
    classify_classify t, collect_eq t, hidsClosed, hidsOpen, hclosed, hopen, hperm, ?_, ?_⟩
  · -- no open leaf is left after classification exactly if there is none before
    have hnil : t.classify.openLeaves = [] ↔ t.openLeaves = [] := by
      rw [← List.map_eq_nil_iff (f := Label.id), hidsOpen, List.map_eq_nil_iff]
    show t.classify.openLeaves.isEmpty = true ↔ _
    rw [List.isEmpty_iff, hnil, hopen, List.map_eq_nil_iff, List.filter_eq_nil_iff]
    simp [ends]
  · have hlenClosed := congrArg List.length hidsClosed
    have hlenOpen := congrArg List.length hidsOpen
    have hlen := hperm.length_eq
    simp only [List.length_map, List.length_append] at hlenClosed hlenOpen hlen
    show t.classify.closedLeaves.length + t.classify.openLeaves.length = _
    omega

/-- The root is closed but has children, and the statuses of its leaves are the wrong way round. One
of the leaves is open, so the goal does not count as valid. -/
theorem verdict_tells_leaves_loaded :
    let shut : Tree := .node { id := 1, formulas := [], closed := true, status := .openLeaf } []
    let unshut : Tree := .node { id := 2, formulas := [], status := .closedLeaf } []
    let t : Tree := .node { id := 0, formulas := [], closed := true, status := ⟨"done"⟩ }
      [shut, unshut]
    let a : Attempt := { root := t }
    t.classify ∈ t.classify.nodes ∧ t.classify.label.status = .inner ∧
      t.classify.closedLeaves.map Label.id = [1] ∧ t.classify.openLeaves.map Label.id = [2] ∧
      unshut ∈ t.nodes ∧ unshut.isLeaf = true ∧ unshut.label.closed = false ∧
      a.verdict.isValid = false ∧ a.verdict.branches = 2 := by
  intro shut unshut t a
  obtain ⟨-, hstatus, -, -, hclosed, hopen, -, -, -, hvalid, hbranches⟩ := verdict_tells_leaves t a
  have hroot : t.classify ∈ t.classify.nodes := mem_nodes_self _
  have hmem : unshut ∈ t.nodes := by decide
  refine ⟨hroot, hstatus _ hroot, hclosed, hopen, hmem, rfl, rfl, ?_, hbranches⟩
  exact Bool.eq_false_iff.2 fun hv => absurd (hvalid.1 hv unshut hmem rfl) Bool.false_ne_true

end Refutation.Tree
