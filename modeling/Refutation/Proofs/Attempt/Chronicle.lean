import Refutation.Proofs.Attempt.Numbering

/-!
# The log and the tree

A step leaves its mark twice: a record is added to the log, and the node at which it was taken is
given children or closed in place. The two never part (`Chronicled`): every record has its node
and every such node its record, both tell the same of the step, and a leaf carries the
instantiations of the records on its branch, in the order of the log.

* `Chronicled.of_advances`: a step keeps log and tree together.
* `Attempt.Reachable.log_tells_tree`: **in every attempt that can be reached the log and the tree
  tell the same story.**
-/

namespace Refutation

/-- A node tells of a step what its record tells. -/
structure Label.Tells (l : Label) (r : Record) : Prop where
  id : l.id = r.nodeId
  step : l.step = r.num
  rule : l.rule = some r.rule
  path : l.path = r.path
  formula : ∃ e, l.origin = some e ∧ e.text = r.formula

/-- A step was taken at the node: it has children or was closed in place. -/
def Tree.Row.Spent (x : Tree.Row) : Prop :=
  x.children ≠ [] ∨ x.label.ClosedInPlace

/-- The instantiations told by the records of a log whose nodes bear one of some numbers. -/
def instantiationsAt (log : List Record) (ids : List Int) : List Instantiation :=
  (log.filter fun r => r.nodeId ∈ ids).flatMap Record.instantiations

/-- The log and the tree of an attempt tell the same. -/
structure Attempt.Chronicled (a : Attempt) : Prop where
  length : a.step = a.log.length
  nums : a.log.map Record.num = (List.range a.log.length).map fun (j : Nat) => (j : Int) + 1
  distinct : (a.log.map Record.nodeId).Nodup
  told : ∀ r ∈ a.log, ∃ x ∈ a.root.rows, x.Spent ∧ x.label.Tells r
  logged : ∀ x ∈ a.root.rows, x.Spent → x.label.id ∈ a.log.map Record.nodeId
  carried : ∀ ls k, a.root.HasBranch ls k →
    k.instantiations = instantiationsAt a.log ((k :: ls).map Label.id)

/-! ## Logs -/

section

variable {log : List Record} {ids ids' : List Int} {r : Record}

theorem instantiationsAt_congr (h : ∀ r ∈ log, r.nodeId ∈ ids ↔ r.nodeId ∈ ids') :
    instantiationsAt log ids = instantiationsAt log ids' := by
  unfold instantiationsAt
  rw [List.filter_congr fun r hr => decide_eq_decide.2 (h r hr)]

theorem instantiationsAt_concat (h : r.nodeId ∈ ids) :
    instantiationsAt (log ++ [r]) ids = instantiationsAt log ids ++ r.instantiations := by
  unfold instantiationsAt
  rw [List.filter_append, List.filter_singleton, decide_eq_true h, List.flatMap_append]
  simp

theorem instantiationsAt_concat_of_notMem (h : r.nodeId ∉ ids) :
    instantiationsAt (log ++ [r]) ids = instantiationsAt log ids := by
  unfold instantiationsAt
  rw [List.filter_append, List.filter_singleton, decide_eq_false h]
  simp

end

/-! ## A step -/

section

variable {l k c : Label} {cs ls : List Label} {num i : Int} {r : Record}

theorem Sprouts.tells (h : Sprouts l num r i k cs) : k.Tells r where
  id := h.id.trans h.recordId.symm
  step := h.step.trans h.recordNum.symm
  rule := h.rule
  path := h.path.trans h.recordPath.symm
  formula := h.origin

/-- No step was taken yet at the leaf that a step picks. -/
theorem Sprouts.not_spent_leaf (h : Sprouts l num r i k cs) : ¬ Tree.Row.Spent ⟨l, []⟩ := by
  rintro (hc | hc)
  · exact hc rfl
  · have ho := hc.closed
    rw [h.opened] at ho
    cases ho

theorem Sprouts.spent_node (h : Sprouts l num r i k cs) :
    Tree.Row.Spent ⟨k, cs.map Label.id⟩ := by
  rcases h.expanded with hne | hc
  · exact Or.inl fun hnil => hne (List.map_eq_nil_iff.1 hnil)
  · exact Or.inr hc

theorem Sprouts.not_spent_child (h : Sprouts l num r i k cs) (hc : c ∈ cs) :
    ¬ Tree.Row.Spent ⟨c, []⟩ := by
  rintro (hne | hp)
  · exact hne rfl
  · exact h.unexpanded c hc hp

/-- A branch of a node with leaves below it ends at the node or at one of the leaves. -/
theorem Tree.HasBranch.withLeaves_cases (h : (Tree.withLeaves k cs).HasBranch ls c) :
    (ls = [] ∧ c = k) ∨ (ls = [k] ∧ c ∈ cs) := by
  unfold Tree.withLeaves at h
  generalize hts : (cs.map fun c => Tree.node c []) = ts at h
  cases h with
  | leaf => exact Or.inl ⟨rfl, rfl⟩
  | child _ ht hb =>
    rw [← hts, List.mem_map] at ht
    obtain ⟨d, hd, rfl⟩ := ht
    cases hb with
    | leaf => exact Or.inr ⟨rfl, hd⟩
    | child _ ht' _ => cases ht'

end

namespace Attempt

variable {goal : Formula} {a b : Attempt} {o : Outcome} {p : WitnessPolicy} {l k : Label}
  {r : Record} {cs : List Label}

theorem Chronicled.initial (goal : Formula) (n : Int) (p : WitnessPolicy) :
    (Attempt.initial goal (.steps n) p).Chronicled where
  length := rfl
  nums := rfl
  distinct := List.nodup_nil
  told r hr := by cases hr
  logged x hx hs := by
    simp only [Attempt.initial, Tree.rows_node, List.map_nil, List.flatMap_nil,
      List.mem_singleton] at hx
    rw [hx] at hs
    rcases hs with hs | hs
    · exact absurd rfl hs
    · cases hs.closed
  carried ls k hb := by
    cases hb with
    | leaf => rfl
    | child _ ht _ => cases ht

/-- The node of a record has a number that was handed out. -/
theorem Chronicled.id_mem_ids (h : a.Chronicled) (hr : r ∈ a.log) : r.nodeId ∈ a.root.ids := by
  obtain ⟨x, hx, -, htells⟩ := h.told r hr
  rw [Tree.ids_eq_map_rows, ← htells.id]
  exact List.mem_map_of_mem hx

/-- The leaf that a step picks is not in the log. -/
theorem Chronicled.id_notMem (hc : a.Coherent goal) (h : a.Chronicled) (hg : a.Grows b l r k cs) :
    l.id ∉ a.log.map Record.nodeId := by
  intro hl
  obtain ⟨q, hq, hql⟩ := List.mem_map.1 hl
  obtain ⟨x, hx, hspent, htells⟩ := h.told q hq
  obtain ⟨before, after, h1, -⟩ := hg.rows_eq
  have hlr : (⟨l, []⟩ : Tree.Row) ∈ a.root.rows := by
    rw [h1]
    exact List.mem_append_right _ List.mem_cons_self
  -- its row would be that of a node at which a step was taken
  have hnd := hc.nodup
  rw [Tree.ids_eq_map_rows] at hnd
  have hxl : x = ⟨l, []⟩ := List.inj_on_of_nodup_map hnd hx hlr (htells.id.trans hql)
  rw [hxl] at hspent
  exact hg.sprouts.not_spent_leaf hspent

/-- The branches that a step makes longer carry what its record tells. -/
theorem Chronicled.carried_of_grows (hc : a.Coherent goal) (h : a.Chronicled)
    (hg : a.Grows b l r k cs) {ls : List Label} {c : Label} (hb : b.root.HasBranch ls c) :
    c.instantiations = instantiationsAt b.log ((c :: ls).map Label.id) := by
  have hsp := hg.sprouts
  rw [hg.log]
  rcases hg.graft.hasBranch_cases hc.nodup hb with ⟨hold, hl⟩ | ⟨as, bs, has, hbs, rfl⟩
  · rw [instantiationsAt_concat_of_notMem (by rw [hsp.recordId]; exact hl)]
    exact h.carried ls c hold
  · -- the new node and its children have numbers that no earlier record has
    have hsame : ∀ q ∈ a.log, q.nodeId ∈ (c :: (as ++ bs)).map Label.id ↔
        q.nodeId ∈ (l :: as).map Label.id := by
      intro q hq
      have hlt := hc.below _ (h.id_mem_ids hq)
      rcases hbs.withLeaves_cases with ⟨rfl, rfl⟩ | ⟨rfl, hcs⟩
      · rw [List.append_nil, List.map_cons, List.map_cons, hsp.id]
      · have hge := (hsp.mem_numbers.1 (List.mem_map_of_mem hcs)).1
        have hne : q.nodeId ≠ c.id := by omega
        simp only [List.map_cons, List.map_append, List.map_nil, List.mem_cons, List.mem_append,
          List.not_mem_nil, or_false, hsp.id, hne, false_or]
        exact or_comm
    have hmem : r.nodeId ∈ (c :: (as ++ bs)).map Label.id := by
      rw [hsp.recordId, ← hsp.id]
      rcases hbs.withLeaves_cases with ⟨rfl, rfl⟩ | ⟨rfl, -⟩
      · exact List.mem_cons_self
      · simp
    calc c.instantiations = l.instantiations ++ r.instantiations :=
          hsp.inherits c hbs.mem_leaves
      _ = instantiationsAt a.log ((l :: as).map Label.id) ++ r.instantiations := by
          rw [h.carried as l has]
      _ = instantiationsAt a.log ((c :: (as ++ bs)).map Label.id) ++ r.instantiations := by
          rw [instantiationsAt_congr hsame]
      _ = instantiationsAt (a.log ++ [r]) ((c :: (as ++ bs)).map Label.id) :=
          (instantiationsAt_concat hmem).symm

/-- A step that makes a leaf into a node keeps log and tree together. -/
theorem Chronicled.of_grows (hc : a.Coherent goal) (h : a.Chronicled) (hg : a.Grows b l r k cs) :
    b.Chronicled := by
  have hsp := hg.sprouts
  obtain ⟨before, after, h1, h2⟩ := hg.rows_eq
  have hlen := h.length
  have hstep := hg.step
  constructor
  · rw [hstep, hg.log, List.length_append, List.length_singleton]
    omega
  · have hnum : r.num = (a.log.length : Int) + 1 := by rw [hsp.recordNum, hstep, hlen]
    rw [hg.log, List.map_append, h.nums, List.length_append, List.length_singleton,
      List.range_succ, List.map_append, List.map_singleton, List.map_singleton, hnum]
  · rw [hg.log, List.map_append, List.map_singleton, hsp.recordId, List.nodup_append]
    refine ⟨h.distinct, List.nodup_singleton _, ?_⟩
    intro i hi j hj hij
    rw [List.mem_singleton] at hj
    exact h.id_notMem hc hg (hj ▸ hij ▸ hi)
  · intro q hq
    rw [hg.log, List.mem_append, List.mem_singleton] at hq
    rw [h2]
    rcases hq with hq | rfl
    · -- the node of an earlier record is not the leaf, so its row is still there
      obtain ⟨x, hx, hspent, htells⟩ := h.told q hq
      refine ⟨x, ?_, hspent, htells⟩
      rw [h1, List.mem_append, List.mem_cons] at hx
      rcases hx with hx | rfl | hx
      · exact List.mem_append_left _ (List.mem_append_left _ hx)
      · exact absurd hspent hsp.not_spent_leaf
      · exact List.mem_append_right _ hx
    · refine ⟨⟨k, cs.map Label.id⟩, ?_, hsp.spent_node, hsp.tells⟩
      exact List.mem_append_left _ (List.mem_append_right _ List.mem_cons_self)
  · intro x hx hspent
    rw [hg.log, List.map_append, List.mem_append]
    rw [h2] at hx
    simp only [List.mem_append, List.mem_cons, List.mem_map] at hx
    rcases hx with (hx | rfl | ⟨c, hcs, rfl⟩) | hx
    · refine Or.inl (h.logged x ?_ hspent)
      rw [h1]; exact List.mem_append_left _ hx
    · right
      rw [List.map_singleton, List.mem_singleton, hsp.recordId]
      exact hsp.id
    · exact absurd hspent (hsp.not_spent_child hcs)
    · refine Or.inl (h.logged x ?_ hspent)
      rw [h1]; exact List.mem_append_right _ (List.mem_cons_of_mem _ hx)
  · intro ls c hb
    exact h.carried_of_grows hc hg hb

/-- **A step keeps log and tree together.** -/
theorem Chronicled.of_advances (hc : a.Coherent goal) (h : a.Chronicled) (hadv : a.Advances b o) :
    b.Chronicled := by
  rcases hc.advances_cases hadv with ⟨hroot, -, hlog, hstep⟩ | ⟨l, r, k, cs, hg⟩
  · constructor
    · rw [hstep, hlog]; exact h.length
    · rw [hlog]; exact h.nums
    · rw [hlog]; exact h.distinct
    · rw [hlog, hroot]; exact h.told
    · rw [hlog, hroot]; exact h.logged
    · rw [hlog, hroot]; exact h.carried
  · exact h.of_grows hc hg

theorem Reachable.chronicled {n : Int} (h : Reachable goal n p a) : a.Chronicled :=
  h.invariant (.initial goal n p) fun _ _ _ hr hc hadv => hc.of_advances hr.coherent.1 hadv

/-- **In every attempt that can be reached the log and the tree tell the same story.** There is
one record for each step, and the steps are numbered from one. The records belong to different
nodes, namely to those that have children or were closed in place, and such a node tells of the
step what its record tells. A leaf carries the instantiations of the records that belong to it
or to a node above it. -/
theorem Reachable.log_tells_tree {n : Nat} (h : Reachable goal n p a) :
    a.step = a.log.length ∧ a.step ≤ n ∧
    a.log.map Record.num = (List.range a.log.length).map (fun (j : Nat) => (j : Int) + 1) ∧
    (a.log.map Record.nodeId).Nodup ∧
    (∀ i, i ∈ a.log.map Record.nodeId ↔
      ∃ u ∈ a.root.nodes, u.id = i ∧ (u.children ≠ [] ∨ u.label.ClosedInPlace)) ∧
    (∀ r ∈ a.log, ∃ u, a.root.find? r.nodeId = some u ∧ u.label.Tells r) ∧
    (∀ k ∈ a.root.leaves, ∃ ls, a.root.HasBranch ls k) ∧
    ∀ ls k, a.root.HasBranch ls k →
      k.instantiations =
        (a.log.filter fun r => r.nodeId ∈ (k :: ls).map Label.id).flatMap Record.instantiations := by
  have hc := h.chronicled
  have hnd := h.coherent.1.nodup
  -- a row at which a step was taken is that of a node with children or closed in place
  have hspent : ∀ u : Tree, u.row.Spent ↔ u.children ≠ [] ∨ u.label.ClosedInPlace := by
    intro u
    have hnil : u.row.children ≠ [] ↔ u.children ≠ [] := not_congr List.map_eq_nil_iff
    exact or_congr_left hnil
  refine ⟨hc.length, h.step_le (by omega), hc.nums, hc.distinct, fun i => ⟨?_, ?_⟩, ?_,
    fun k hk => Tree.exists_hasBranch hk, hc.carried⟩
  · intro hi
    obtain ⟨r, hr, rfl⟩ := List.mem_map.1 hi
    obtain ⟨x, hx, hs, htells⟩ := hc.told r hr
    obtain ⟨u, hu, rfl⟩ := List.mem_map.1 hx
    exact ⟨u, hu, htells.id, (hspent u).1 hs⟩
  · rintro ⟨u, hu, rfl, hs⟩
    exact hc.logged u.row (Tree.row_mem_rows hu) ((hspent u).2 hs)
  · intro r hr
    obtain ⟨x, hx, -, htells⟩ := hc.told r hr
    obtain ⟨u, hu, rfl⟩ := List.mem_map.1 hx
    have hfind := Tree.find?_eq_some hnd hu
    exact ⟨u, by rw [← htells.id]; exact hfind, htells⟩

/-- A disjunction of an existential and a contradictory conjunction: the right branch is closed
in place, and the leaf on the left carries the witness. -/
theorem Reachable.log_tells_tree_disjunction :
    let P : Formula := .const "P" (.fn .individual .truth)
    let B : Formula := .const "B" .truth
    let goal : Formula :=
      .not (.or (.ex "x" .individual (.app P (.var "x" .individual))) (.and B (.not B)))
    let a := (Attempt.initial goal (.steps 5) .byName).run.attempt
    Reachable goal (5 : Nat) .byName a ∧ a.log.map Record.nodeId = [0, 1, 2] ∧
      a.root.ids = [0, 1, 3, 2] ∧
      a.root.leaves.map (fun k => (k.closed, k.instantiations)) =
        [(false, [.of (some "x") "c1"]), (true, [])] ∧
      (∀ r ∈ a.log, ∃ u, a.root.find? r.nodeId = some u ∧ u.label.Tells r) := by
  intro P B goal a
  have hreach : Reachable goal (5 : Nat) .byName a := (run_spec goal 5 .byName).1
  obtain ⟨-, -, -, -, -, htells, -⟩ := hreach.log_tells_tree
  -- one evaluation of the run for all that is read off it
  have hrun : (fun a : Attempt => (a.log.map Record.nodeId, a.root.ids,
      a.root.leaves.map fun k => (k.closed, k.instantiations)))
        (Attempt.initial goal (.steps 5) .byName).run.attempt =
      ([0, 1, 2], [0, 1, 3, 2], [(false, [.of (some "x") "c1"]), (true, [])]) := by cbv
  obtain ⟨hlog, hrest⟩ := Prod.mk.inj hrun
  obtain ⟨hids, hleaves⟩ := Prod.mk.inj hrest
  exact ⟨hreach, hlog, hids, hleaves, htells⟩

end Attempt

end Refutation
