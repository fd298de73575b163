import Refutation.Tree.Basic

/-!
# Putting a tree in place of a node

`Graft u new t t'` says that `t'` is `t` with `new` in place of one node `u`, everything
else unchanged. Replacement goes by numbers, so it is a graft only where no number occurs
twice (`graft_replace`). There the search that found a leaf goes on in what takes its place
(`Graft.next?_eq`).

* `HasBranch t ls l`: `l` is the label of a leaf of `t`, `ls` the labels above it.
-/

namespace Refutation.Tree

@[simp] theorem nodesList_eq_flatMap (ts : List Tree) : nodesList ts = ts.flatMap nodes := by
  induction ts with
  | nil => rfl
  | cons t ts ih => simp [nodesList, ih]

@[simp] theorem leavesList_eq_flatMap (ts : List Tree) : leavesList ts = ts.flatMap leaves := by
  induction ts with
  | nil => rfl
  | cons t ts ih => simp [leavesList, ih]

@[simp] theorem classifyList_eq_map (ts : List Tree) : classifyList ts = ts.map classify := by
  induction ts with
  | nil => rfl
  | cons t ts ih => simp [classifyList, ih]

/-- The numbers of the nodes in preorder. -/
def ids (t : Tree) : List Int :=
  t.nodes.map id

theorem ids_node (l : Label) (ts : List Tree) : (node l ts).ids = l.id :: ts.flatMap ids := by
  simp [ids, nodes, List.map_flatMap, id, label]
  rfl

theorem mem_nodes_self (t : Tree) : t ∈ t.nodes := by
  cases t
  rw [nodes]; exact List.mem_cons_self

theorem id_mem_ids {t u : Tree} (h : u ∈ t.nodes) : u.id ∈ t.ids :=
  List.mem_map_of_mem h

/-- `t'` is `t` with `new` in place of the node `u`. -/
inductive Graft (u new : Tree) : Tree → Tree → Prop
  | here : Graft u new u new
  | inside {l : Label} {before after : List Tree} {t t' : Tree} (h : Graft u new t t') :
      Graft u new (node l (before ++ t :: after)) (node l (before ++ t' :: after))

variable {t t' u new : Tree} {i : Int}

theorem replaceIn?_eq_none {ts : List Tree} (hts : ∀ t ∈ ts, t.replace? i new = none) :
    replaceIn? ts i new = none := by
  induction ts with
  | nil => rfl
  | cons t ts ih =>
    rw [replaceIn?, hts t List.mem_cons_self, ih fun s hs => hts s (List.mem_cons_of_mem _ hs)]
    rfl

/-- Nothing is replaced where the number does not occur. -/
theorem replace?_eq_none (h : i ∉ t.ids) : t.replace? i new = none := by
  induction t using induct with
  | node l ts ih =>
    rw [ids_node, List.mem_cons, not_or] at h
    have hts : replaceIn? ts i new = none := by
      refine replaceIn?_eq_none fun t ht => ih t ht fun hi => h.2 ?_
      exact List.mem_flatMap.2 ⟨t, ht, hi⟩
    rw [replace?, if_neg (Ne.symm h.1), hts]
    rfl

/-- Among several trees, the one that holds the node is changed. -/
theorem replaceIn?_graft (new : Tree) {ts : List Tree} (hnd : (ts.flatMap ids).Nodup)
    (ih : ∀ t ∈ ts, t.ids.Nodup → u ∈ t.nodes → ∃ t', t.replace? u.id new = some t' ∧ Graft u new t t')
    (hu : u ∈ ts.flatMap nodes) :
    ∃ before t t' after, ts = before ++ t :: after ∧ Graft u new t t' ∧
      replaceIn? ts u.id new = some (before ++ t' :: after) := by
  induction ts with
  | nil => simp at hu
  | cons t ts ihts =>
    rw [List.flatMap_cons, List.nodup_append] at hnd
    obtain ⟨hnt, hnts, hdis⟩ := hnd
    rw [List.flatMap_cons, List.mem_append] at hu
    by_cases hut : u ∈ t.nodes
    · obtain ⟨t', hr, hg⟩ := ih t List.mem_cons_self hnt hut
      exact ⟨[], t, t', ts, rfl, hg, by rw [replaceIn?, hr]; rfl⟩
    · have huts := hu.resolve_left hut
      obtain ⟨before, s, s', after, hs, hg, hr⟩ :=
        ihts hnts (fun s hs => ih s (List.mem_cons_of_mem _ hs)) huts
      -- the number of `u` occurs further right, so not in `t`
      have hid : u.id ∉ t.ids := by
        intro h
        obtain ⟨s, hs, hus⟩ := List.mem_flatMap.1 huts
        exact hdis _ h _ (List.mem_flatMap.2 ⟨s, hs, id_mem_ids hus⟩) rfl
      refine ⟨t :: before, s, s', after, by rw [hs]; rfl, hg, ?_⟩
      rw [replaceIn?, replace?_eq_none hid, hr]
      rfl

theorem replace?_graft (new : Tree) (hnd : t.ids.Nodup) (hu : u ∈ t.nodes) :
    ∃ t', t.replace? u.id new = some t' ∧ Graft u new t t' := by
  induction t using induct with
  | node l ts ih =>
    rw [nodes, nodesList_eq_flatMap, List.mem_cons] at hu
    rcases hu with rfl | hu
    · exact ⟨new, by rw [replace?]; exact if_pos rfl, .here⟩
    · rw [ids_node, List.nodup_cons] at hnd
      have hne : l.id ≠ u.id := by
        intro h
        obtain ⟨s, hs, hus⟩ := List.mem_flatMap.1 hu
        exact hnd.1 (List.mem_flatMap.2 ⟨s, hs, h ▸ id_mem_ids hus⟩)
      obtain ⟨before, s, s', after, rfl, hg, hr⟩ := replaceIn?_graft new hnd.2 ih hu
      exact ⟨_, by rw [replace?, if_neg hne, hr]; rfl, .inside hg⟩

/-- **Where no number occurs twice, replacing the number of a node replaces that node.** -/
theorem graft_replace (hnd : t.ids.Nodup) (hu : u ∈ t.nodes) :
    Graft u new t (t.replace u.id new) := by
  obtain ⟨t', hr, hg⟩ := replace?_graft new hnd hu
  rw [replace, hr]; exact hg

/-- A graft that changes nothing puts a tree where it stands already. -/
theorem Graft.eq_iff (h : Graft u new t t') : t' = t ↔ new = u := by
  induction h with
  | here => exact Iff.rfl
  | @inside l before after t t' _ ih =>
    rw [← ih, node.injEq, List.append_cancel_left_eq, List.cons.injEq]
    exact ⟨fun h => h.2.1, fun h => ⟨rfl, h, rfl⟩⟩

/-- A graft changes the list of numbers in one place. -/
theorem Graft.ids_eq (h : Graft u new t t') :
    ∃ before after, t.ids = before ++ u.ids ++ after ∧ t'.ids = before ++ new.ids ++ after := by
  induction h with
  | here => exact ⟨[], [], by simp, by simp⟩
  | @inside l before after t t' _ ih =>
    obtain ⟨as, bs, h1, h2⟩ := ih
    refine ⟨l.id :: (before.flatMap ids ++ as), bs ++ after.flatMap ids, ?_, ?_⟩
    · rw [ids_node, List.flatMap_append, List.flatMap_cons, h1]; simp
    · rw [ids_node, List.flatMap_append, List.flatMap_cons, h2]; simp

theorem leaves_node (l : Label) {ts : List Tree} (h : ts ≠ []) :
    (node l ts).leaves = ts.flatMap leaves := by
  cases ts with
  | nil => exact absurd rfl h
  | cons t ts => rw [leaves, leavesList_eq_flatMap]

/-- A graft changes the list of leaves in one place. -/
theorem Graft.leaves_eq (h : Graft u new t t') :
    ∃ before after, t.leaves = before ++ u.leaves ++ after ∧
      t'.leaves = before ++ new.leaves ++ after := by
  induction h with
  | here => exact ⟨[], [], by simp, by simp⟩
  | @inside l before after t t' _ ih =>
    obtain ⟨as, bs, h1, h2⟩ := ih
    refine ⟨before.flatMap leaves ++ as, bs ++ after.flatMap leaves, ?_, ?_⟩
    · rw [leaves_node l (by simp), List.flatMap_append, List.flatMap_cons, h1]; simp
    · rw [leaves_node l (by simp), List.flatMap_append, List.flatMap_cons, h2]; simp

theorem Graft.mem_nodes (h : Graft u new t t') : u ∈ t.nodes := by
  induction h with
  | here => exact mem_nodes_self _
  | inside _ ih => simp [nodes, ih]

/-! ## The search after a graft -/

theorem nextIn?_append (ss ts : List Tree) : nextIn? (ss ++ ts) = (nextIn? ss).or (nextIn? ts) := by
  induction ss with
  | nil => rfl
  | cons s ss ih => rw [List.cons_append, nextIn?, nextIn?, ih, Option.or_assoc]

theorem exists_of_nextIn? {ts : List Tree} {r : Tree × Match} (h : nextIn? ts = some r) :
    ∃ t ∈ ts, t.next? = some r := by
  induction ts with
  | nil => cases h
  | cons t ts ih =>
    rw [nextIn?, Option.or_eq_some_iff] at h
    rcases h with h | ⟨-, h⟩
    · exact ⟨t, List.mem_cons_self, h⟩
    · obtain ⟨s, hs, hr⟩ := ih h
      exact ⟨s, List.mem_cons_of_mem _ hs, hr⟩

theorem mem_nodes_of_next? {m : Match} (h : t.next? = some (u, m)) : u ∈ t.nodes := by
  induction t using induct with
  | node l ts ih =>
    rw [next?] at h
    split at h
    · cases h
    · split at h
      · cases h
        exact mem_nodes_self _
      · obtain ⟨s, hs, hn⟩ := exists_of_nextIn? h
        have hu := ih s hs hn
        rw [nodes, nodesList_eq_flatMap]
        exact List.mem_cons_of_mem _ (List.mem_flatMap.2 ⟨s, hs, hu⟩)

theorem id_mem_of_nextIn? {ts : List Tree} {m : Match} (h : nextIn? ts = some (u, m)) :
    u.id ∈ ts.flatMap ids := by
  obtain ⟨s, hs, hn⟩ := exists_of_nextIn? h
  exact List.mem_flatMap.2 ⟨s, hs, id_mem_ids (mem_nodes_of_next? hn)⟩

/-- **The search goes on in what takes the place of the leaf that was found**, where no number
occurs twice. -/
theorem Graft.next?_eq {l : Label} {m : Match} {r : Tree × Match} (h : Graft (node l []) new t t')
    (hnd : t.ids.Nodup) (hn : t.next? = some (node l [], m)) (hnew : new.next? = some r) :
    t'.next? = some r := by
  induction h with
  | here => exact hnew
  | @inside k before after t t' hg ih =>
    rw [ids_node, List.nodup_cons, List.flatMap_append, List.flatMap_cons, List.nodup_append,
      List.nodup_append] at hnd
    obtain ⟨-, -, ⟨hnt, -, hafter⟩, hbefore⟩ := hnd
    have hid : (node l []).id ∈ t.ids := id_mem_ids hg.mem_nodes
    rw [next?] at hn ⊢
    split at hn
    · cases hn
    · rename_i hopen
      rw [if_neg hopen]
      split at hn
      · -- the node above the graft has children, so it was not the one found
        have hleaf := congrArg (fun s => s.1.children) (Option.some.inj hn)
        simp [children] at hleaf
      · simp only [nextIn?_append, nextIn?] at hn ⊢
        rw [Option.or_eq_some_iff] at hn
        rcases hn with hn | ⟨hb, hn⟩
        · -- found before `t`: then its number occurs twice
          have hmem := id_mem_of_nextIn? hn
          exact absurd rfl (hbefore _ hmem _ (List.mem_append_left _ hid))
        · rw [Option.or_eq_some_iff] at hn
          rcases hn with hn | ⟨-, hn⟩
          · rw [hb, ih hnt hn]; rfl
          · have hmem := id_mem_of_nextIn? hn
            exact absurd rfl (hafter _ hid _ hmem)

/-- A node without children is a leaf. -/
theorem mem_leaves_of_mem_nodes {l : Label} (h : node l [] ∈ t.nodes) : l ∈ t.leaves := by
  induction t using induct with
  | node k ts ih =>
    cases ts with
    | nil =>
      have hk : node l [] = node k [] := by simpa [nodes] using h
      cases hk
      simp [leaves]
    | cons t ts =>
      rw [nodes, nodesList_eq_flatMap, List.mem_cons, List.mem_flatMap] at h
      obtain h | ⟨s, hs, hl⟩ := h
      · cases h
      · rw [leaves, leavesList_eq_flatMap, List.mem_flatMap]
        exact ⟨s, hs, ih s hs hl⟩

/-- A leaf is a node without children. -/
theorem mem_nodes_of_mem_leaves {l : Label} (h : l ∈ t.leaves) : node l [] ∈ t.nodes := by
  induction t using induct with
  | node k ts ih =>
    cases ts with
    | nil =>
      obtain rfl : l = k := by simpa [leaves] using h
      exact mem_nodes_self _
    | cons t ts =>
      rw [leaves, leavesList_eq_flatMap, List.mem_flatMap] at h
      obtain ⟨s, hs, hl⟩ := h
      rw [nodes, nodesList_eq_flatMap]
      exact List.mem_cons_of_mem _ (List.mem_flatMap.2 ⟨s, hs, ih s hs hl⟩)

/-- The label `l` of a leaf together with the labels `ls` above it, the root's first. -/
inductive HasBranch : Tree → List Label → Label → Prop
  | leaf (l : Label) : HasBranch (node l []) [] l
  | child {t : Tree} {ts : List Tree} {ls : List Label} {leaf : Label} (l : Label) (ht : t ∈ ts)
      (h : HasBranch t ls leaf) : HasBranch (node l ts) (l :: ls) leaf

theorem exists_hasBranch {l : Label} (h : l ∈ t.leaves) : ∃ ls, HasBranch t ls l := by
  induction t using induct with
  | node k ts ih =>
    cases ts with
    | nil =>
      simp only [leaves, List.mem_singleton] at h
      rw [h]; exact ⟨[], .leaf k⟩
    | cons t ts =>
      rw [leaves, leavesList_eq_flatMap, List.mem_flatMap] at h
      obtain ⟨s, hs, hl⟩ := h
      obtain ⟨ls, hb⟩ := ih s hs hl
      exact ⟨k :: ls, .child k hs hb⟩

theorem HasBranch.mem_leaves {ls : List Label} {l : Label} (h : HasBranch t ls l) :
    l ∈ t.leaves := by
  induction h with
  | leaf l => exact List.mem_singleton_self l
  | @child t ts ls leaf l ht h ih =>
    cases ts with
    | nil => cases ht
    | cons s ss =>
      rw [leaves, leavesList_eq_flatMap]
      exact List.mem_flatMap.2 ⟨t, ht, ih⟩

end Refutation.Tree
