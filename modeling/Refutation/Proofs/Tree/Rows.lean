import Mathlib.Data.List.Nodup
import Refutation.Proofs.Tree.Graft

/-!
# The rows of a tree

Laid out flat, a tree is a list of rows, one for each node in preorder: the label of the node
and the numbers of its children. A replacement that keeps the number of a node changes the
rows of that node only (`Graft.rows_eq`). Of the branches, those that ended at the node go on
in what takes its place, and the others do not pass it (`Graft.hasBranch_cases`).

* `find?_eq_some`: where no number occurs twice, a node is found by its number.
-/

namespace Refutation.Tree

/-- A node without what lies below it: its label and the numbers of its children. -/
structure Row where
  label : Label
  children : List Int
  deriving DecidableEq, Repr

/-- The row of the root. -/
def row (t : Tree) : Row :=
  ⟨t.label, t.children.map id⟩

/-- The rows of all nodes in preorder. -/
def rows (t : Tree) : List Row :=
  t.nodes.map row

theorem rows_node (l : Label) (ts : List Tree) :
    (node l ts).rows = ⟨l, ts.map id⟩ :: ts.flatMap rows := by
  unfold rows
  rw [nodes, nodesList_eq_flatMap, List.map_cons, List.map_flatMap]
  rfl

theorem ids_eq_map_rows (t : Tree) : t.ids = t.rows.map fun r => r.label.id := by
  unfold ids rows
  rw [List.map_map]
  rfl

theorem row_mem_rows {t u : Tree} (h : u ∈ t.nodes) : u.row ∈ t.rows :=
  List.mem_map_of_mem h

variable {t t' u new : Tree} {l k : Label} {ls : List Label}

/-- **A node is found by its number**, where no number occurs twice. -/
theorem find?_eq_some (hnd : t.ids.Nodup) (hu : u ∈ t.nodes) : t.find? u.id = some u := by
  have hsome : (t.nodes.find? fun v => v.id == u.id).isSome :=
    List.find?_isSome.2 ⟨u, hu, beq_self_eq_true _⟩
  obtain ⟨v, hv⟩ := Option.isSome_iff_exists.1 hsome
  have hid : v.id = u.id := by simpa using List.find?_some hv
  have hvu : v = u := List.inj_on_of_nodup_map hnd (List.mem_of_find?_eq_some hv) hu hid
  rw [find?, hv, hvu]

/-! ## Rows after a graft -/

/-- A replacement that keeps the number of the node keeps the number of the root. -/
theorem Graft.id_eq (h : Graft u new t t') (hid : new.id = u.id) : t'.id = t.id := by
  cases h with
  | here => exact hid
  | inside _ => rfl

/-- **A graft that keeps the number of the node changes the list of rows in one place.** -/
theorem Graft.rows_eq (h : Graft u new t t') (hid : new.id = u.id) :
    ∃ before after, t.rows = before ++ u.rows ++ after ∧ t'.rows = before ++ new.rows ++ after := by
  induction h with
  | here => exact ⟨[], [], by simp, by simp⟩
  | @inside l before after t t' h ih =>
    obtain ⟨as, bs, h1, h2⟩ := ih
    -- the node above keeps its label, and its children keep their numbers
    have hids : (before ++ t' :: after).map id = (before ++ t :: after).map id := by
      rw [List.map_append, List.map_append, List.map_cons, List.map_cons, h.id_eq hid]
    refine ⟨⟨l, (before ++ t :: after).map id⟩ :: (before.flatMap rows ++ as),
      bs ++ after.flatMap rows, ?_, ?_⟩
    · rw [rows_node, List.flatMap_append, List.flatMap_cons, h1]; simp
    · rw [rows_node, hids, List.flatMap_append, List.flatMap_cons, h2]; simp

/-! ## Branches after a graft -/

/-- The numbers on a branch are numbers of the tree. -/
theorem HasBranch.id_mem_ids (h : HasBranch t ls k) : ∀ i ∈ (k :: ls).map Label.id, i ∈ t.ids := by
  induction h with
  | leaf l =>
    intro i hi
    simpa [ids_node] using hi
  | @child t ts ls leaf l ht _ ih =>
    intro i hi
    rw [ids_node, List.mem_cons, List.mem_flatMap]
    simp only [List.map_cons, List.mem_cons] at hi ih
    rcases hi with hi | hi | hi
    · exact Or.inr ⟨t, ht, ih i (Or.inl hi)⟩
    · exact Or.inl hi
    · exact Or.inr ⟨t, ht, ih i (Or.inr hi)⟩

/-- **A branch after a graft at a leaf is an old one that does not pass the leaf, or goes on
from there**, where no number occurs twice. -/
theorem Graft.hasBranch_cases (h : Graft (node l []) new t t') (hnd : t.ids.Nodup)
    (hb : HasBranch t' ls k) :
    (HasBranch t ls k ∧ l.id ∉ (k :: ls).map Label.id) ∨
      ∃ as bs, HasBranch t as l ∧ HasBranch new bs k ∧ ls = as ++ bs := by
  induction h generalizing ls with
  | here => exact Or.inr ⟨[], ls, .leaf l, hb, rfl⟩
  | @inside m before after t t' h ih =>
    have hlt : l.id ∈ t.ids := id_mem_ids h.mem_nodes
    rw [ids_node, List.nodup_cons, List.flatMap_append, List.flatMap_cons, List.nodup_append,
      List.nodup_append] at hnd
    obtain ⟨hroot, -, ⟨hnt, -, hafter⟩, hbefore⟩ := hnd
    have hm : l.id ≠ m.id := by
      intro he
      exact hroot (List.mem_append_right _ (List.mem_append_left _ (he ▸ hlt)))
    -- a branch of a child that does not pass the leaf is one of the node above
    have hchild : ∀ {c : Tree} {cs : List Label}, c ∈ before ++ t :: after → HasBranch c cs k →
        l.id ∉ (k :: cs).map Label.id → HasBranch (node m (before ++ t :: after)) (m :: cs) k ∧
          l.id ∉ (k :: m :: cs).map Label.id := by
      intro c cs hc hcb hl
      refine ⟨.child m hc hcb, fun hi => ?_⟩
      simp only [List.map_cons, List.mem_cons] at hi hl
      rcases hi with hi | hi | hi
      · exact hl (Or.inl hi)
      · exact hm hi
      · exact hl (Or.inr hi)
    generalize hts : before ++ t' :: after = ts at hb
    cases hb with
    | leaf => simp at hts
    | @child c _ cs _ _ hc hcb =>
      rw [← hts, List.mem_append, List.mem_cons] at hc
      rcases hc with hc | rfl | hc
      · have hc' : c ∈ before ++ t :: after := List.mem_append_left _ hc
        refine Or.inl (hchild hc' hcb fun hi => ?_)
        have hic : l.id ∈ c.ids := hcb.id_mem_ids _ hi
        exact hbefore _ (List.mem_flatMap.2 ⟨c, hc, hic⟩) _ (List.mem_append_left _ hlt) rfl
      · rcases ih hnt hcb with ⟨hold, hl⟩ | ⟨as, bs, has, hbs, rfl⟩
        · exact Or.inl (hchild (by simp) hold hl)
        · exact Or.inr ⟨m :: as, bs, .child m (by simp) has, hbs, rfl⟩
      · have hc' : c ∈ before ++ t :: after :=
          List.mem_append_right _ (List.mem_cons_of_mem _ hc)
        refine Or.inl (hchild hc' hcb fun hi => ?_)
        have hic : l.id ∈ c.ids := hcb.id_mem_ids _ hi
        exact hafter _ hlt _ (List.mem_flatMap.2 ⟨c, hc, hic⟩) rfl

end Refutation.Tree
