import Mathlib.Data.List.Basic
import Refutation.Proofs.Tree.Graft

/-!
# Trees with other labels

`Tree.relabel h` puts `h l` for every label `l` of a tree, and the leaves go along. What goes by
numbers goes along if `h` keeps the numbers (`relabel_replace`), and the search if `h` keeps what it
looks at (`map_fst_next?_relabel`).
-/

namespace Refutation.Tree

mutual

/-- The tree with another label on every node. -/
def relabel (h : Label → Label) : Tree → Tree
  | .node l ts => .node (h l) (relabelList h ts)
termination_by structural t => t

/-- Several trees with other labels. -/
def relabelList (h : Label → Label) : List Tree → List Tree
  | [] => []
  | t :: ts => relabel h t :: relabelList h ts
termination_by structural ts => ts

end

variable {h : Label → Label} {t u new : Tree}

theorem relabelList_eq_map (ts : List Tree) : relabelList h ts = ts.map (relabel h) := by
  induction ts with
  | nil => rfl
  | cons t ts ih => rw [relabelList, ih, List.map_cons]

theorem relabel_node (l : Label) (ts : List Tree) :
    (node l ts).relabel h = .node (h l) (ts.map (relabel h)) := by
  rw [relabel, relabelList_eq_map]

theorem leaves_relabel (t : Tree) : (t.relabel h).leaves = t.leaves.map h := by
  induction t using induct with
  | node l ts ih =>
    cases ts with
    | nil => rfl
    | cons t ts =>
      rw [relabel_node, List.map_cons, leaves, leaves, leavesList_eq_flatMap, leavesList_eq_flatMap,
        ← List.map_cons, List.flatMap_map, List.map_flatMap]
      exact List.flatMap_congr ih

/-! ## Replacement -/

theorem relabelList_replaceIn? (ts : List Tree) (i : Int)
    (hts : ∀ t ∈ ts, (t.relabel h).replace? i (new.relabel h) = (t.replace? i new).map (relabel h)) :
    replaceIn? (ts.map (relabel h)) i (new.relabel h) =
      (replaceIn? ts i new).map (List.map (relabel h)) := by
  induction ts with
  | nil => rfl
  | cons t ts ih =>
    have ht := hts t List.mem_cons_self
    have htail := ih fun s hs => hts s (List.mem_cons_of_mem _ hs)
    rw [List.map_cons, replaceIn?, replaceIn?, ht, htail]
    cases t.replace? i new with
    | some t' => rfl
    | none =>
      cases replaceIn? ts i new with
      | some ts' => rfl
      | none => rfl

theorem relabel_replace? (hid : ∀ l, (h l).id = l.id) (t : Tree) (i : Int) :
    (t.relabel h).replace? i (new.relabel h) = (t.replace? i new).map (relabel h) := by
  induction t using induct with
  | node l ts ih =>
    rw [relabel_node, replace?, replace?, hid, relabelList_replaceIn? ts i ih]
    split
    · rfl
    · cases replaceIn? ts i new with
      | some ts' => rw [Option.map_some, Option.map_some, Option.map_some, Option.map_some, relabel_node]
      | none => rfl

/-- A node can be replaced before or after the labels are changed. -/
theorem relabel_replace (hid : ∀ l, (h l).id = l.id) (t new : Tree) (i : Int) :
    (t.replace i new).relabel h = (t.relabel h).replace i (new.relabel h) := by
  rw [replace, replace, relabel_replace? hid]
  cases t.replace? i new <;> rfl

/-! ## Search -/

/-- What the search looks at is the same. -/
structure KeepsSearch (h : Label → Label) : Prop where
  closed : ∀ l, (h l).closed = l.closed
  found : ∀ l, ((h l).formulas.findSome? Entry.match?).isSome =
    (l.formulas.findSome? Entry.match?).isSome

theorem map_fst_nextIn?_relabel (ts : List Tree)
    (hts : ∀ t ∈ ts, (t.relabel h).next?.map Prod.fst = t.next?.map fun r => r.1.relabel h) :
    (nextIn? (ts.map (relabel h))).map Prod.fst = (nextIn? ts).map fun r => r.1.relabel h := by
  induction ts with
  | nil => rfl
  | cons t ts ih =>
    have ht := hts t List.mem_cons_self
    have htail := ih fun s hs => hts s (List.mem_cons_of_mem _ hs)
    rw [List.map_cons, nextIn?, nextIn?, Option.map_or, Option.map_or, ht, htail]

/-- **The search finds the same node.** -/
theorem map_fst_next?_relabel (hh : KeepsSearch h) (t : Tree) :
    (t.relabel h).next?.map Prod.fst = t.next?.map fun r => r.1.relabel h := by
  induction t using induct with
  | node l ts ih =>
    have hfound := hh.found l
    rw [relabel_node, next?, next?, hh.closed]
    cases l.closed with
    | true => rfl
    | false =>
      cases hl : l.formulas.findSome? Entry.match? with
      | some m =>
        rw [hl, Option.isSome_some] at hfound
        obtain ⟨m', hm'⟩ := Option.isSome_iff_exists.1 hfound
        rw [hm']
        exact congrArg some (relabel_node l ts).symm
      | none =>
        rw [hl, Option.isSome_none, Option.isSome_eq_false_iff, Option.isNone_iff_eq_none] at hfound
        rw [hfound]
        exact map_fst_nextIn?_relabel ts ih

end Refutation.Tree
