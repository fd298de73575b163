import Refutation.Proofs.Attempt.Course
import Refutation.Proofs.Attempt.Numbering

/-!
# What a step leaves alone

A step replaces one open leaf, found by its number, and copies the nodes above it. So every other
node stays where it was in preorder: with all that lies below it, or, above the leaf, with its label
and the numbers of its children (`Tree.Outlives`). What is new hangs right below the leaf. In
particular a closed leaf is there ever after.

* `Tree.Graft.nodes_eq`: a graft at a leaf changes the list of nodes in one place, the nodes above
  the leaf apart.
* `Attempt.Reachable.step_frame`: **a step touches the selected leaf only, and closed leaves stay.**
-/

namespace Refutation

namespace Tree

variable {u v v' t t' new : Tree} {l : Label}

/-- What becomes of the node `v` when the node `u` is replaced: it is the same tree, or, above `u`,
has the same label and children with the same numbers. -/
structure Outlives (u v v' : Tree) : Prop where
  row : v'.row = v.row
  apart : u ∉ v.nodes → v' = v

theorem Outlives.refl (u v : Tree) : Outlives u v v :=
  ⟨rfl, fun _ => rfl⟩

/-- **A graft at a leaf that keeps its number changes the list of nodes in one place**, where the
nodes above the leaf are counted as the same. -/
theorem Graft.nodes_eq (h : Graft (node l []) new t t') (hid : new.id = l.id) :
    ∃ before before' after, t.nodes = before ++ node l [] :: after ∧
      t'.nodes = before' ++ new.nodes ++ after ∧
      List.Forall₂ (Outlives (node l [])) before before' := by
  induction h with
  | here => exact ⟨[], [], [], rfl, by simp, .nil⟩
  | @inside k left right t t' h ih =>
    obtain ⟨before, before', after, ht, ht', hkept⟩ := ih
    -- the node above the leaf keeps its label and the numbers of its children
    have habove : Outlives (node l []) (node k (left ++ t :: right)) (node k (left ++ t' :: right)) := by
      refine ⟨?_, fun hnot => absurd ?_ hnot⟩
      · simp only [row, label, children, List.map_append, List.map_cons, h.id_eq hid]
      · rw [nodes, nodesList_eq_flatMap]
        refine List.mem_cons_of_mem _ (List.mem_flatMap.2 ⟨t, by simp, h.mem_nodes⟩)
    refine ⟨node k (left ++ t :: right) :: (left.flatMap nodes ++ before),
      node k (left ++ t' :: right) :: (left.flatMap nodes ++ before'), after ++ right.flatMap nodes,
      ?_, ?_, ?_⟩
    · rw [nodes, nodesList_eq_flatMap, List.flatMap_append, List.flatMap_cons, ht]
      simp
    · rw [nodes, nodesList_eq_flatMap, List.flatMap_append, List.flatMap_cons, ht']
      simp
    · refine .cons habove (List.rel_append ?_ hkept)
      exact List.forall₂_same.2 fun v _ => .refl _ v

theorem nodes_withLeaves (k : Label) (cs : List Label) :
    (withLeaves k cs).nodes = withLeaves k cs :: (withLeaves k cs).children := by
  unfold withLeaves
  rw [nodes, nodesList_eq_flatMap, List.flatMap_map]
  simp [nodes, children, ← List.map_eq_flatMap]

end Tree

namespace Attempt

variable {goal : Formula} {a b : Attempt} {n : Int} {p : WitnessPolicy}

/-- What a step does to the list of nodes. -/
structure Touches (a b : Attempt) (u : Tree) (e : Expansion) : Prop where
  -- the selected node is an open leaf, and the log names it
  leaf : u.children = []
  opened : u.label.closed = false
  logged : b.log = a.log ++ [e.record] ∧ e.record.nodeId = u.id
  -- every other node stays where it is in preorder
  nodes : ∃ before before' after, a.root.nodes = before ++ u :: after ∧
    b.root.nodes = before' ++ (e.tree :: e.tree.children) ++ after ∧
    List.Forall₂ (Tree.Outlives u) before before' ∧ ∀ v ∈ before ++ after, v.id ≠ u.id
  -- what takes the place of the leaf has its number, and new leaves below it
  id : e.tree.id = u.id
  fresh : ∀ c ∈ e.tree.children, c.children = [] ∧ c.id ∉ a.root.ids

/-- The node is the only one with its number. -/
theorem ne_id_of_nodup {t u : Tree} {before after : List Tree} (hnd : t.ids.Nodup)
    (ht : t.nodes = before ++ u :: after) : ∀ v ∈ before ++ after, v.id ≠ u.id := by
  unfold Tree.ids at hnd
  rw [ht, List.map_append, List.map_cons, List.nodup_append, List.nodup_cons] at hnd
  obtain ⟨-, ⟨hafter, -⟩, hbefore⟩ := hnd
  intro v hv
  rcases List.mem_append.1 hv with hv | hv
  · exact hbefore _ (List.mem_map_of_mem hv) _ List.mem_cons_self
  · exact fun hid => hafter (hid ▸ List.mem_map_of_mem hv)

/-- **A step touches only the leaf it expands.** -/
theorem Reachable.touches (h : Reachable goal n p a) {u : Tree} {m : Match} {e : Expansion}
    (hadv : a.Advances b (.applied u m e)) : a.Touches b u e := by
  obtain ⟨hcoh, -, -⟩ := h.coherent
  cases hadv with
  | @applied l pre post f w _ s _ _ detail after hn hl hs hmem hp hd hr hx =>
    obtain ⟨k, cs, htree, -, hsp⟩ := hx.sprouts hp detail after
    rw [← hr, Supply.draw_nextId hd] at hsp
    have hg : Tree.Graft (.node l []) e.tree a.root (a.root.replace l.id e.tree) :=
      Tree.graft_replace hcoh.nodup hmem
    have hid : e.tree.id = l.id := by
      rw [htree]
      exact hsp.id
    obtain ⟨before, before', after, hbefore, hafter, hkept⟩ := hg.nodes_eq hid
    refine ⟨rfl, hp.opened, ⟨rfl, hsp.recordId⟩, ⟨before, before', after, hbefore, ?_, hkept,
      ne_id_of_nodup hcoh.nodup hbefore⟩, hid, fun c hc => ?_⟩
    · rw [htree, Tree.nodes_withLeaves, ← htree] at hafter
      exact hafter
    · rw [htree] at hc
      obtain ⟨k', hk', rfl⟩ := List.mem_map.1 hc
      refine ⟨rfl, fun hi => ?_⟩
      -- the numbers of the children were not handed out before
      have hnew := hsp.mem_numbers.1 (List.mem_map_of_mem hk')
      have hold := hcoh.below _ hi
      exact absurd hold (by show ¬ k'.id < a.supply.nextId; omega)

/-- A closed leaf is not the one that a step expands, so the step leaves it as it is. -/
theorem Touches.keeps_closed {u : Tree} {e : Expansion} (h : a.Touches b u e) {l : Label}
    (hl : l.closed = true) (hmem : .node l [] ∈ a.root.nodes) : .node l [] ∈ b.root.nodes := by
  obtain ⟨before, before', after, ha, hb, hkept, -⟩ := h.nodes
  have hne : u ≠ .node l [] := by
    intro hu
    have hopen := h.opened
    rw [hu] at hopen
    exact absurd (hl.symm.trans hopen) Bool.noConfusion
  rw [ha, List.mem_append, List.mem_cons] at hmem
  rw [hb]
  rcases hmem with hmem | hmem | hmem
  · obtain ⟨i, hi, hget⟩ := List.mem_iff_getElem.1 hmem
    have hi' : i < before'.length := hkept.length_eq ▸ hi
    have hsame : before'[i] = .node l [] := by
      have hout := hkept.get hi hi'
      simp only [List.get_eq_getElem, hget] at hout
      exact hout.apart (by simpa [Tree.nodes] using hne)
    refine List.mem_append_left _ (List.mem_append_left _ ?_)
    exact hsame ▸ List.getElem_mem hi'
  · exact absurd hmem.symm hne
  · exact List.mem_append_right _ hmem

/-- **A step touches the selected leaf only, and closed leaves stay.** The node a step expands is an
open leaf. Every other node is still there, in the same place in preorder, with all that lies below
it, or, if it lies above the leaf, with the same label and with children of the same numbers; and
every new node is a child of the leaf. So a closed leaf of an attempt is a leaf of every later one,
and the same. -/
theorem Reachable.step_frame (h : Reachable goal n p a) :
    (∀ b u m e, a.advance = .ok (b, .applied u m e) → a.Touches b u e) ∧
      ∀ b, a.LeadsTo b → ∀ l : Label, l.closed = true → .node l [] ∈ a.root.nodes →
        .node l [] ∈ b.root.nodes := by
  refine ⟨fun b u m e hb => h.touches (h.advances hb), fun b hlead l hl hmem => ?_⟩
  refine h.invariant_of_leadsTo hlead (P := fun b => .node l [] ∈ b.root.nodes) hmem ?_
  intro b c o hr ih hadv
  cases o with
  | applied u m e => exact (hr.touches hadv).keeps_closed hl ih
  | exhausted => cases hadv; exact ih
  | limit k => cases hadv; exact ih

/-- A disjunction whose left side is contradicted: two steps close the left branch, the third expands
the conjunction on the right, and the closed leaf with the number 2 is there at the end of the run. -/
theorem Reachable.step_frame_closed_branch :
    let A : Formula := .const "A" .truth
    let B : Formula := .const "B" .truth
    let goal : Formula := .not (.and (.or A (.and B B)) (.not A))
    let start := Attempt.initial goal (.steps 5) .byName
    let a := (runFor 2 start).attempt
    Reachable goal 5 .byName a ∧
      (∃ b u m e, a.advance = .ok (b, .applied u m e) ∧ u.id = 3 ∧ a.Touches b u e) ∧
      ∃ l : Label, l.id = 2 ∧ l.closed = true ∧ .node l [] ∈ a.root.nodes ∧
        .node l [] ∈ start.run.attempt.root.nodes := by
  intro A B goal start a
  have hstart : Reachable goal 5 .byName start := .initial
  have ha : Reachable goal 5 .byName a := hstart.of_leadsTo (hstart.leadsTo_runFor 2)
  have hrun : (fun a : Attempt => (a.step, a.root.next?.map fun r => r.1.id,
      a.root.nodes.map fun u => (u.id, u.label.closed, u.isLeaf))) a =
        (2, some 3, [(0, false, false), (1, false, false), (2, true, true), (3, false, true)]) := by
    unfold a
    cbv
  obtain ⟨hstep, hrest⟩ := Prod.mk.inj hrun
  obtain ⟨hnext, hnodes⟩ := Prod.mk.inj hrest
  obtain ⟨hframe, hclosed⟩ := ha.step_frame
  refine ⟨ha, ?_, ?_⟩
  · obtain ⟨b, o, hb, hadv⟩ := ha.exists_advance
    cases hadv with
    | exhausted hn => rw [hn] at hnext; cases hnext
    | limit hn hl hs =>
      rw [ha.coherent.2.1] at hl
      cases hl
      omega
    | applied hn hl hs hmem hp hd hr hx =>
      rw [hn] at hnext
      exact ⟨_, _, _, _, hb, Option.some.inj hnext, hframe _ _ _ _ hb⟩
  · have hmem : (2, true, true) ∈ a.root.nodes.map fun u => (u.id, u.label.closed, u.isLeaf) := by
      rw [hnodes]
      decide
    obtain ⟨u, hu, heq⟩ := List.mem_map.1 hmem
    obtain ⟨hid, heq⟩ := Prod.mk.inj heq
    obtain ⟨hcl, hleaf⟩ := Prod.mk.inj heq
    obtain ⟨l, ts⟩ := u
    obtain rfl : ts = [] := List.isEmpty_iff.1 hleaf
    exact ⟨l, hid, hcl, hu, hclosed _ ha.leadsTo_run l hcl hu⟩

end Attempt

end Refutation
