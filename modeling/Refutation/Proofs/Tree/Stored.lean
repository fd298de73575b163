import Refutation.Proofs.Tree.Address
import Refutation.Tree.Stored

/-!
# Replacing in storage

A replacement takes a child that is at its old place for unchanged. So it passes over a node that is
the replacement itself: the nodes it meets are those with the number that do not lie below another
one (`Stored.outermost`), and it replaces the first of them that is stored elsewhere. Everything off
the way to that node is shared with the old tree (`Stored.Graft`).

* `Stored.tree_replace`: **a replacement that is not the node found replaces the node found.**
* `Stored.replaced_iff`: in general it does so unless it is the node found itself, and another node
  with the number follows.
* `Tree.replace_store`: a replacement that is stored apart from the tree.
-/

namespace Refutation.Stored

/-- What a replacement relies on: a node at the place of `new` is `new`, and the tree takes up no
place from `free` on. -/
structure Placed (t new : Stored) (free : Nat) : Prop where
  one : ∀ u ∈ t.nodes, u.place = new.place → u = new
  below : ∀ u ∈ t.nodes, u.place < free

mutual

/-- The nodes with a number that do not lie below another one, from left to right. -/
def outermost (k : Int) : Stored → List Stored
  | .node a l ts => if l.id = k then [.node a l ts] else outermostIn k ts
termination_by structural t => t

/-- The outermost nodes with a number of several trees. -/
def outermostIn (k : Int) : List Stored → List Stored
  | [] => []
  | t :: ts => outermost k t ++ outermostIn k ts
termination_by structural ts => ts

end

/-- `t'` is `t` with `new` in place of the node `u`. The nodes above `u` may be at other places,
everything else is shared. -/
inductive Graft (u new : Stored) : Stored → Stored → Prop
  | here : Graft u new u new
  | inside {a b : Nat} {l : Label} {before after : List Stored} {t t' : Stored}
      (h : Graft u new t t') :
      Graft u new (node a l (before ++ t :: after)) (node b l (before ++ t' :: after))

variable {t t' u v c new : Stored} {a free : Nat} {l : Label} {ts before after : List Stored}
  {k : Int}

/-! ## The nodes of a stored tree -/

@[simp] theorem trees_eq_map (ts : List Stored) : trees ts = ts.map tree := by
  induction ts with
  | nil => rfl
  | cons t ts ih => rw [trees, ih, List.map_cons]

@[simp] theorem nodesList_eq_flatMap (ts : List Stored) : nodesList ts = ts.flatMap nodes := by
  induction ts with
  | nil => rfl
  | cons t ts ih => rw [nodesList, ih, List.flatMap_cons]

@[simp] theorem outermostIn_eq_flatMap (ts : List Stored) :
    outermostIn k ts = ts.flatMap (outermost k) := by
  induction ts with
  | nil => rfl
  | cons t ts ih => rw [outermostIn, ih, List.flatMap_cons]

theorem tree_node : (node a l ts).tree = .node l (ts.map tree) := by
  rw [tree, trees_eq_map]

theorem nodes_node : (node a l ts).nodes = node a l ts :: ts.flatMap nodes := by
  rw [nodes, nodesList_eq_flatMap]

theorem outermost_node : (node a l ts).outermost k =
    if l.id = k then [node a l ts] else ts.flatMap (outermost k) := by
  rw [outermost, outermostIn_eq_flatMap]

theorem id_tree (t : Stored) : t.tree.id = t.id := by
  cases t
  rfl

theorem nodes_tree (t : Stored) : t.tree.nodes = t.nodes.map tree := by
  induction t using induct with
  | node a l ts ih =>
    rw [tree_node, nodes_node, Tree.nodes, Tree.nodesList_eq_flatMap, List.map_cons, tree_node,
      List.flatMap_map, List.map_flatMap]
    exact congrArg _ (List.flatMap_congr ih)

theorem find?_tree (t : Stored) (k : Int) : t.tree.find? k = (t.find? k).map tree := by
  rw [Tree.find?, nodes_tree, List.find?_map, find?]
  simp only [Function.comp_def, id_tree]

theorem find?_node : (node a l ts).find? k =
    if l.id = k then some (node a l ts) else ts.findSome? (find? · k) := by
  rw [find?, nodes_node]
  by_cases hk : l.id = k
  · rw [if_pos hk]
    exact List.find?_cons_of_pos (beq_iff_eq.2 hk)
  · rw [if_neg hk]
    refine (List.find?_cons_of_neg ?_).trans List.find?_flatMap
    exact fun h => hk (beq_iff_eq.1 h)

/-- Search finds the first of the outermost nodes. -/
theorem find?_eq_head? (t : Stored) (k : Int) : t.find? k = (t.outermost k).head? := by
  induction t using induct with
  | node a l ts ih =>
    rw [find?_node, outermost_node]
    by_cases hk : l.id = k
    · rw [if_pos hk, if_pos hk, List.head?_cons]
    · rw [if_neg hk, if_neg hk, List.head?_flatMap]
      have hmap := congrArg (List.findSome? fun o => o) (List.map_congr_left ih)
      rwa [List.findSome?_map, List.findSome?_map] at hmap

theorem mem_nodes_self (t : Stored) : t ∈ t.nodes := by
  cases t
  rw [nodes_node]
  exact List.mem_cons_self

theorem mem_nodes_of_mem_outermost (h : u ∈ t.outermost k) : u ∈ t.nodes := by
  induction t using induct with
  | node a l ts ih =>
    rw [outermost_node] at h
    split at h
    · rw [List.mem_singleton.1 h]
      exact mem_nodes_self _
    · obtain ⟨c, hc, hu⟩ := List.mem_flatMap.1 h
      rw [nodes_node]
      exact List.mem_cons_of_mem _ (List.mem_flatMap.2 ⟨c, hc, ih c hc hu⟩)

theorem Placed.of_apart (hne : ∀ u ∈ t.nodes, u.place ≠ new.place)
    (hbelow : ∀ u ∈ t.nodes, u.place < free) : Placed t new free :=
  ⟨fun u hu hp => absurd hp (hne u hu), hbelow⟩

theorem Placed.child (h : Placed (node a l ts) new free) (hc : c ∈ ts) : Placed c new free := by
  have hsub : ∀ u ∈ c.nodes, u ∈ (node a l ts).nodes := by
    intro u hu
    rw [nodes_node]
    exact List.mem_cons_of_mem _ (List.mem_flatMap.2 ⟨c, hc, hu⟩)
  exact ⟨fun u hu => h.one u (hsub u hu), fun u hu => h.below u (hsub u hu)⟩

theorem Graft.tree (h : Graft u new t t') : Tree.Graft u.tree new.tree t.tree t'.tree := by
  induction h with
  | here => exact .here
  | inside _ ih =>
    simp only [tree_node, List.map_append, List.map_cons]
    exact .inside ih

/-! ## One try -/

theorem replace_of_id (hk : l.id = k) : (node a l ts).replace k new free = (new, free) := by
  rw [replace, if_pos hk]

/-- Trees that a replacement leaves as they are, also all together. -/
theorem replaceIn?_eq_none (h : ∀ s ∈ ts, s.replace k new free = (s, free)) :
    replaceIn? ts k new free = none := by
  induction ts with
  | nil => rw [replaceIn?]
  | cons t ts ih =>
    rw [replaceIn?, h t List.mem_cons_self, if_pos rfl,
      ih fun s hs => h s (List.mem_cons_of_mem _ hs)]
    rfl

/-- The first child that a replacement puts at another place is the one that changes. -/
theorem replaceIn?_append_cons (hbefore : ∀ s ∈ before, s.replace k new free = (s, free))
    (hc : (c.replace k new free).1.place ≠ c.place) :
    replaceIn? (before ++ c :: after) k new free =
      some (before ++ (c.replace k new free).1 :: after, (c.replace k new free).2) := by
  induction before with
  | nil => rw [List.nil_append, replaceIn?, if_neg hc, List.nil_append]
  | cons s before ih =>
    rw [List.cons_append, replaceIn?, hbefore s List.mem_cons_self, if_pos rfl,
      ih fun s hs => hbefore s (List.mem_cons_of_mem _ hs)]
    rfl

/-- A tree in which the replacement stands at every outermost node stays as it is. -/
theorem replace_eq_self (h : Placed t new free) (hk : ∀ v ∈ t.outermost k, v.place = new.place) :
    t.replace k new free = (t, free) := by
  induction t using induct with
  | node a l ts ih =>
    rw [outermost_node] at hk
    by_cases hl : l.id = k
    · rw [if_pos hl] at hk
      rw [replace_of_id hl, h.one _ (mem_nodes_self _) (hk _ (List.mem_singleton_self _))]
    · rw [if_neg hl] at hk
      have hts : replaceIn? ts k new free = none := by
        refine replaceIn?_eq_none fun s hs => ih s hs (h.child hs) fun v hv => ?_
        exact hk v (List.mem_flatMap.2 ⟨s, hs, hv⟩)
      rw [replace, if_neg hl, hts]

/-- **A replacement replaces the first outermost node that is stored elsewhere**, and puts the root
at another place. -/
theorem replace_graft (h : Placed t new free)
    (hv : (t.outermost k).find? (·.place ≠ new.place) = some v) :
    ∃ t' free', t.replace k new free = (t', free') ∧ free ≤ free' ∧ t'.place ≠ t.place ∧
      Graft v new t t' ∧ ∃ before after, t.outermost k = before ++ v :: after ∧
        (∀ s ∈ before, s.place = new.place) ∧
        t'.outermost k = before ++ new.outermost k ++ after := by
  induction t using induct with
  | node a l ts ih =>
    rw [outermost_node] at hv ⊢
    by_cases hl : l.id = k
    · rw [if_pos hl] at hv ⊢
      have hroot := List.find?_some hv
      obtain rfl : v = node a l ts := List.mem_singleton.1 (List.mem_of_find?_eq_some hv)
      have hne : a ≠ new.place := of_decide_eq_true hroot
      refine ⟨new, free, replace_of_id hl, Nat.le_refl _, Ne.symm hne, .here, [], [], rfl, ?_, ?_⟩
      · exact fun s hs => absurd hs List.not_mem_nil
      · rw [List.nil_append, List.append_nil]
    · rw [if_neg hl] at hv ⊢
      rw [List.find?_flatMap, List.findSome?_eq_some_iff] at hv
      obtain ⟨bs, c, as, rfl, hc, hbs⟩ := hv
      have hbs' : ∀ s ∈ bs, ∀ w ∈ s.outermost k, w.place = new.place := by
        intro s hs w hw
        simpa using List.find?_eq_none.1 (hbs s hs) w hw
      obtain ⟨c', free', hrep, hfree, hplace, hgraft, before, after, hout, hbefore, hout'⟩ :=
        ih c (by simp) (h.child (by simp)) hc
      -- to the left of `c` there is nothing to replace
      have hleft : ∀ s ∈ bs, s.replace k new free = (s, free) := fun s hs =>
        replace_eq_self (h.child (List.mem_append_left _ hs)) (hbs' s hs)
      have hin : replaceIn? (bs ++ c :: as) k new free = some (bs ++ c' :: as, free') := by
        have hchild : (c.replace k new free).1.place ≠ c.place := by rw [hrep]; exact hplace
        rw [replaceIn?_append_cons hleft hchild, hrep]
      have ha : a < free := h.below _ (mem_nodes_self (node a l _))
      refine ⟨node free' l (bs ++ c' :: as), free' + 1, ?_, by omega, ?_, .inside hgraft,
        bs.flatMap (outermost k) ++ before, after ++ as.flatMap (outermost k), ?_, ?_, ?_⟩
      · rw [replace, if_neg hl, hin]
      · show free' ≠ a
        omega
      · rw [List.flatMap_append, List.flatMap_cons, hout]
        simp only [List.append_assoc, List.cons_append]
      · intro s hs
        rcases List.mem_append.1 hs with hs | hs
        · obtain ⟨b, hb, hs⟩ := List.mem_flatMap.1 hs
          exact hbs' b hb s hs
        · exact hbefore s hs
      · rw [outermost_node, if_neg hl, List.flatMap_append, List.flatMap_cons, hout']
        simp only [List.append_assoc]

/-! ## Replacing the node that is found -/

theorem outermost_eq_nil_iff : t.outermost k = [] ↔ t.find? k = none := by
  rw [find?_eq_head?, List.head?_eq_none_iff]

theorem replace_of_find?_eq_none (h : Placed t new free) (hk : t.find? k = none) :
    t.replace k new free = (t, free) := by
  refine replace_eq_self h fun v hv => ?_
  rw [outermost_eq_nil_iff.2 hk] at hv
  cases hv

theorem replace?_tree (h : Placed t new free) (hu : t.find? k = some u)
    (hne : u.place ≠ new.place) :
    t.tree.replace? k new.tree = some (t.replace k new free).1.tree := by
  induction t using induct with
  | node a l ts ih =>
    rw [find?_node] at hu
    rw [tree_node, Tree.replace?]
    by_cases hl : l.id = k
    · rw [if_pos hl, replace_of_id hl]
    · rw [if_neg hl] at hu ⊢
      obtain ⟨bs, c, as, rfl, hc, hbs⟩ := List.findSome?_eq_some_iff.1 hu
      have hcp : Placed c new free := h.child (by simp)
      have hchild : (c.replace k new free).1.place ≠ c.place := by
        obtain ⟨us, hus⟩ := List.head?_eq_some_iff.1 ((find?_eq_head? c k).symm.trans hc)
        have hfirst : (c.outermost k).find? (·.place ≠ new.place) = some u := by
          rw [hus]
          exact List.find?_cons_of_pos (decide_eq_true hne)
        obtain ⟨c', free', hrep, -, hplace, -⟩ := replace_graft hcp hfirst
        rw [hrep]
        exact hplace
      have hleft : ∀ s ∈ bs, s.replace k new free = (s, free) := fun s hs =>
        replace_of_find?_eq_none (h.child (List.mem_append_left _ hs)) (hbs s hs)
      have hleft' : ∀ s ∈ bs.map tree, k ∉ s.ids := by
        intro s hs
        obtain ⟨b, hb, rfl⟩ := List.mem_map.1 hs
        rw [← Tree.find?_eq_none_iff, find?_tree, hbs b hb, Option.map_none]
      rw [replace, if_neg hl, replaceIn?_append_cons hleft hchild, List.map_append, List.map_cons,
        Tree.replaceIn?_append_cons hleft' (ih c (by simp) hcp hc), tree_node, List.map_append,
        List.map_cons]
      rfl

/-- **A replacement that is not the node found replaces the node found.** -/
theorem tree_replace (h : Placed t new free) (hne : ∀ u, t.find? k = some u → u.place ≠ new.place) :
    (t.replace k new free).1.tree = t.tree.replace k new.tree := by
  cases hu : t.find? k with
  | none =>
    have hnone : t.tree.find? k = none := by rw [find?_tree, hu, Option.map_none]
    rw [Tree.replace_of_find?_eq_none hnone, replace_of_find?_eq_none h hu]
  | some u => rw [Tree.replace, replace?_tree h hu (hne u hu), Option.getD_some]

/-- A replacement with the number is found afterwards, also if it has replaced a later node: what
stands before that node is the replacement itself. -/
theorem find?_replace (h : Placed t new free) (hid : new.id = k) :
    (t.replace k new free).1.find? k = (t.find? k).map fun _ => new := by
  have hone : ∀ u ∈ t.outermost k, u.place = new.place → u = new := fun u hu =>
    h.one u (mem_nodes_of_mem_outermost hu)
  cases hv : (t.outermost k).find? (·.place ≠ new.place) with
  | none =>
    have hall : ∀ u ∈ t.outermost k, u.place = new.place := by simpa using hv
    rw [replace_eq_self h hall, find?_eq_head?]
    cases hout : t.outermost k with
    | nil => rfl
    | cons u us =>
      have hu : u ∈ t.outermost k := by rw [hout]; exact List.mem_cons_self
      rw [hone u hu (hall u hu)]
      rfl
  | some v =>
    obtain ⟨t', free', hrep, -, -, -, before, after, hout, hbefore, hout'⟩ := replace_graft h hv
    have hnew : new.outermost k = [new] := by
      cases new with
      | node a l ts => exact outermost_node.trans (if_pos hid)
    rw [hrep, find?_eq_head?, find?_eq_head?, hout, hout', hnew]
    cases before with
    | nil => rfl
    | cons b bs =>
      have hb : b ∈ t.outermost k := by rw [hout]; exact List.mem_cons_self
      rw [hone b hb (hbefore b List.mem_cons_self)]
      rfl

/-- **Replacement replaces the node that search finds, unless it is given this very node and another
one follows.** The exception is exact: the replacement is the node found itself, and the first
outermost node with the number that is stored elsewhere is another tree; that one is overwritten. In
any case nothing changes where the number does not occur, and a replacement with the number is what
search finds then. -/
theorem replaced_iff (h : Placed t new free) (k : Int) :
    (Tree.Replaced t.tree k new.tree (t.replace k new free).1.tree ↔
      ∀ u v, t.find? k = some u → u.place = new.place →
        (t.outermost k).find? (·.place ≠ new.place) = some v → v.tree = new.tree) ∧
    (t.find? k = none → (t.replace k new free).1 = t) ∧
    (new.id = k → (t.replace k new free).1.find? k = (t.find? k).map fun _ => new) := by
  refine ⟨?_, fun hk => by rw [replace_of_find?_eq_none h hk], find?_replace h⟩
  rw [Tree.replaced_iff_eq]
  by_cases hself : ∃ u, t.find? k = some u ∧ u.place = new.place
  · obtain ⟨u, hu, hplace⟩ := hself
    have hnew : u = new := h.one u (List.mem_of_find?_eq_some hu) hplace
    have hkeep : t.tree.replace k new.tree = t.tree :=
      Tree.replace_of_find?_eq_some (by rw [find?_tree, hu, hnew, Option.map_some])
    rw [hkeep]
    cases hv : (t.outermost k).find? (·.place ≠ new.place) with
    | none =>
      rw [replace_eq_self h (by simpa using hv)]
      exact ⟨fun _ _ _ _ _ hw => (Option.some_ne_none _ hw.symm).elim, fun _ => rfl⟩
    | some v =>
      obtain ⟨t', free', hrep, -, -, hgraft, -⟩ := replace_graft h hv
      rw [hrep, hgraft.tree.eq_iff]
      constructor
      · intro heq _ w _ _ hw
        cases hw
        exact heq.symm
      · exact fun hall => (hall u v hu hplace rfl).symm
  · have hne : ∀ u, t.find? k = some u → u.place ≠ new.place := fun u hu hp => hself ⟨u, hu, hp⟩
    exact ⟨fun _ u _ hu hp => absurd hp (hne u hu), fun _ => tree_replace h hne⟩

/-- The number 5 occurs three times: below the first child, below that node, and as the second
child. By a node that is stored apart only the first of these is replaced, with what lies below it;
the first child and the root are copied. -/
theorem replaced_iff_repeated :
    let leaf (a : Nat) (i : Int) : Stored := .node a { id := i, formulas := [] } []
    let u : Stored := .node 3 { id := 5, formulas := [] } [leaf 4 5]
    let t : Stored := .node 0 { id := 0, formulas := [] }
      [.node 1 { id := 1, formulas := [] } [leaf 2 2, u], leaf 5 5]
    let new : Stored := .node 6 { id := 5, formulas := [], step := 1 } [leaf 7 7, leaf 8 8]
    Placed t new 9 ∧ t.find? 5 = some u ∧ u.place ≠ new.place ∧ new.id = 5 ∧
      Tree.Replaced t.tree 5 new.tree (t.replace 5 new 9).1.tree ∧
      t.replace 5 new 9 = (.node 10 { id := 0, formulas := [] }
        [.node 9 { id := 1, formulas := [] } [leaf 2 2, new], leaf 5 5], 11) ∧
      (t.replace 5 new 9).1.find? 5 = some new ∧
      t.find? 7 = none ∧ (t.replace 7 new 9).1 = t := by
  intro leaf u t new
  have hplaced : Placed t new 9 := .of_apart (by decide) (by decide)
  have hfound : t.find? 5 = some u := rfl
  have hne : u.place ≠ new.place := by decide
  obtain ⟨hiff, -, hfind⟩ := replaced_iff hplaced 5
  have hreplaced := hiff.2 fun w v hw hp => by
    rw [hfound] at hw
    cases hw
    exact absurd hp hne
  exact ⟨hplaced, hfound, hne, rfl, hreplaced, rfl, hfind rfl, rfl,
    (replaced_iff hplaced 7).2.1 rfl⟩

/-- Two children have the number 5, and the first of them is given as the replacement. It is what
search finds, so nothing should change, but the second child is overwritten. -/
theorem not_replaced_by_found_itself :
    let a : Stored := .node 1 { id := 5, formulas := [.formula (.const "A" .truth)] } []
    let b : Stored := .node 2 { id := 5, formulas := [.formula (.const "B" .truth)] } []
    let t : Stored := .node 0 { id := 0, formulas := [] } [a, b]
    Placed t a 3 ∧ t.find? 5 = some a ∧ t.tree.replace 5 a.tree = t.tree ∧
      t.replace 5 a 3 = (.node 3 { id := 0, formulas := [] } [a, a], 4) ∧
      ¬Tree.Replaced t.tree 5 a.tree (t.replace 5 a 3).1.tree := by
  intro a b t
  have hone : ∀ u ∈ t.nodes, u.place = a.place → u = a := by
    simp [t, nodes, place, a, b]
  refine ⟨⟨hone, by decide⟩, rfl, by decide, rfl, ?_⟩
  rw [Tree.replaced_iff_eq]
  decide

end Refutation.Stored

/-! ## Trees that are stored apart -/

namespace Refutation.Tree

open Stored (Placed)

/-- `s` is `t` stored at the places from `free` on, with nothing at `free'` or later. -/
structure StoredFrom (free : Nat) (t : Tree) (s : Stored) (free' : Nat) : Prop where
  tree : s.tree = t
  le : free ≤ free'
  places : ∀ u ∈ s.nodes, free ≤ u.place ∧ u.place < free'

theorem storeList_spec {ts : List Tree} (free : Nat)
    (ih : ∀ t ∈ ts, ∀ free, StoredFrom free t (t.store free).1 (t.store free).2) :
    (storeList ts free).1.map Stored.tree = ts ∧ free ≤ (storeList ts free).2 ∧
      ∀ s ∈ (storeList ts free).1, ∀ u ∈ s.nodes,
        free ≤ u.place ∧ u.place < (storeList ts free).2 := by
  induction ts generalizing free with
  | nil => exact ⟨rfl, Nat.le_refl _, fun s hs => absurd hs List.not_mem_nil⟩
  | cons t ts hts =>
    obtain ⟨htree, hle, hplaces⟩ := ih t List.mem_cons_self free
    obtain ⟨htrees, hle', hplaces'⟩ :=
      hts (t.store free).2 fun s hs => ih s (List.mem_cons_of_mem _ hs)
    simp only [storeList, List.map_cons, List.mem_cons]
    refine ⟨by rw [htree, htrees], by omega, ?_⟩
    rintro s (rfl | hs) u hu
    · have := hplaces u hu
      omega
    · have := hplaces' s hs u hu
      omega

/-- A tree is stored at free places only. -/
theorem store_spec (t : Tree) (free : Nat) :
    StoredFrom free t (t.store free).1 (t.store free).2 := by
  induction t using induct generalizing free with
  | node l ts ih =>
    obtain ⟨htrees, hle, hplaces⟩ := storeList_spec (free + 1) ih
    rw [store]
    refine ⟨by rw [Stored.tree_node, htrees], by omega, fun u hu => ?_⟩
    rw [Stored.nodes_node, List.mem_cons, List.mem_flatMap] at hu
    obtain rfl | ⟨s, hs, hu⟩ := hu
    · exact ⟨Nat.le_refl _, hle⟩
    · have := hplaces s hs u hu
      omega

/-- **A replacement that is stored apart from the tree replaces the node that search finds.** -/
theorem replace_store (t : Tree) (k : Int) (new : Tree) :
    let s := t.store 0
    let r := new.store s.2
    (s.1.replace k r.1 r.2).1.tree = t.replace k new := by
  intro s r
  have hs : StoredFrom 0 t s.1 s.2 := store_spec t 0
  have hr : StoredFrom s.2 new r.1 r.2 := store_spec new s.2
  have hroot := hr.places r.1 (Stored.mem_nodes_self r.1)
  have hne : ∀ u ∈ s.1.nodes, u.place ≠ r.1.place := by
    intro u hu
    have := hs.places u hu
    omega
  have hplaced : Placed s.1 r.1 r.2 := by
    refine .of_apart hne fun u hu => ?_
    have := hs.places u hu
    omega
  have hfound : ∀ u, s.1.find? k = some u → u.place ≠ r.1.place := fun u hu =>
    hne u (List.mem_of_find?_eq_some hu)
  rw [Stored.tree_replace hplaced hfound, hs.tree, hr.tree]

end Refutation.Tree
