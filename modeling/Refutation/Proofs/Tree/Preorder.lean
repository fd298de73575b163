import Mathlib.Data.List.Nodup
import Refutation.Proofs.Tree.Address

/-!
# Addresses in preorder

`Tree.addresses` lists the addresses of the nodes in the order in which `Tree.nodes` lists the
nodes, which is the order of words. The length of an address is the depth of the node. Between a
node and one of its children only nodes are listed that lie below the node, so the parent of a node
is the last one before it that is less deep, and the tree can be told from the list of depths.

* `map_at?_addresses`, `pairwise_addresses`: which addresses are listed, and in which order.
* `lastSmaller_depths_iff`: **the last node before a node that is less deep is its parent.**
* `mem_edges_iff`: parents and children told by their numbers, where no number occurs twice.
-/

namespace Refutation.Tree

mutual

/-- The addresses of all nodes, parents before children, from left to right. -/
def addresses : Tree → List (List Nat)
  | .node _ ts => [] :: addressesFrom 0 ts
termination_by structural t => t

/-- The addresses of the nodes of several trees, the first of which is the `i`-th child. -/
def addressesFrom (i : Nat) : List Tree → List (List Nat)
  | [] => []
  | t :: ts => (addresses t).map (i :: ·) ++ addressesFrom (i + 1) ts
termination_by structural ts => ts

end

/-- The numbers of parents and children. -/
def edges (t : Tree) : List (Int × Int) :=
  t.nodes.flatMap fun u => u.children.map fun c => (u.id, c.id)

/-- Of all places before `j` that hold less than `j` does, `i` is the last. -/
def LastSmaller (ds : List Nat) (i j : Nat) : Prop :=
  ∃ d e, i < j ∧ ds[i]? = some d ∧ ds[j]? = some e ∧ d < e ∧
    ∀ k m, i < k → k < j → ds[k]? = some m → e ≤ m

variable {t u c : Tree} {l : Label} {ts : List Tree} {p q : List Nat} {i j k : Nat} {a b : Int}

/-! ## Which addresses are listed -/

theorem map_at?_addressesFrom (before : List Tree)
    (hts : ∀ t ∈ ts, t.addresses.map t.at? = t.nodes.map some) :
    (addressesFrom before.length ts).map (node l (before ++ ts)).at? =
      (ts.flatMap nodes).map some := by
  induction ts generalizing before with
  | nil => rfl
  | cons t ts ih =>
    obtain ⟨ht, hts⟩ := List.forall_mem_cons.1 hts
    have hrest := ih (before ++ [t]) hts
    rw [List.length_append, List.length_singleton, List.append_assoc,
      List.singleton_append] at hrest
    have hchild : ∀ p, (node l (before ++ t :: ts)).at? (before.length :: p) = t.at? p := by
      intro p
      rw [at?_node_cons, List.getElem?_append_right le_rfl, Nat.sub_self]
      rfl
    rw [addressesFrom, List.map_append, List.map_map, hrest, List.flatMap_cons, List.map_append,
      ← ht]
    exact congrArg (· ++ _) (List.map_congr_left fun p _ => hchild p)

/-- At the addresses that are listed stand the nodes, in preorder. -/
theorem map_at?_addresses (t : Tree) : t.addresses.map t.at? = t.nodes.map some := by
  induction t using induct with
  | node l ts ih =>
    rw [addresses, nodes, nodesList_eq_flatMap, List.map_cons, List.map_cons]
    exact congrArg _ (map_at?_addressesFrom [] ih)

theorem length_addresses (t : Tree) : t.addresses.length = t.nodes.length := by
  simpa using congrArg List.length (map_at?_addresses t)

theorem exists_node_of_getElem? (h : t.addresses[i]? = some p) :
    ∃ u, t.nodes[i]? = some u ∧ t.at? p = some u := by
  have hi := congrArg (·[i]?) (map_at?_addresses t)
  simp only [List.getElem?_map, h, Option.map_some] at hi
  obtain ⟨u, hu, hat⟩ := Option.map_eq_some_iff.1 hi.symm
  exact ⟨u, hu, hat.symm⟩

theorem cons_mem_addressesFrom (hc : ts[k]? = some c) (hp : p ∈ c.addresses) :
    (i + k) :: p ∈ addressesFrom i ts := by
  induction ts generalizing i k with
  | nil => cases hc
  | cons t ts ih =>
    rw [addressesFrom, List.mem_append]
    cases k with
    | zero =>
      cases hc
      exact Or.inl (List.mem_map_of_mem hp)
    | succ k =>
      have hrest := ih (i := i + 1) (k := k) hc
      rw [Nat.add_right_comm] at hrest
      exact Or.inr hrest

theorem mem_addresses (h : t.at? p = some u) : p ∈ t.addresses := by
  induction p generalizing t with
  | nil =>
    cases t with
    | node l ts => rw [addresses]; exact List.mem_cons_self
  | cons i p ih =>
    cases t with
    | node l ts =>
      obtain ⟨c, hc, hu⟩ := at?_cons_eq_some_iff.1 h
      have hmem := cons_mem_addressesFrom (i := 0) hc (ih hu)
      rw [Nat.zero_add] at hmem
      rw [addresses]
      exact List.mem_cons_of_mem _ hmem

/-- One more turn leads to a child. -/
theorem at?_concat (t : Tree) (p : List Nat) (k : Nat) :
    t.at? (p ++ [k]) = (t.at? p).bind fun u => u.children[k]? := by
  induction p generalizing t with
  | nil =>
    cases t with
    | node l ts =>
      show ts[k]?.bind some = ts[k]?
      exact Option.bind_fun_some _
  | cons i p ih =>
    cases t with
    | node l ts =>
      rw [List.cons_append, at?_node_cons, at?_node_cons, Option.bind_assoc]
      exact congrArg _ (funext fun c => ih c)

/-! ## The order of the addresses -/

theorem exists_of_mem_addressesFrom (h : p ∈ addressesFrom i ts) : ∃ k q, i ≤ k ∧ p = k :: q := by
  induction ts generalizing i with
  | nil => cases h
  | cons t ts ih =>
    rw [addressesFrom, List.mem_append, List.mem_map] at h
    rcases h with ⟨q, -, rfl⟩ | h
    · exact ⟨i, q, le_rfl, rfl⟩
    · obtain ⟨k, q, hk, rfl⟩ := ih h
      exact ⟨k, q, by omega, rfl⟩

theorem pairwise_addressesFrom (i : Nat) (hts : ∀ t ∈ ts, t.addresses.Pairwise (· < ·)) :
    (addressesFrom i ts).Pairwise (· < ·) := by
  induction ts generalizing i with
  | nil => exact List.Pairwise.nil
  | cons t ts ih =>
    obtain ⟨ht, hts⟩ := List.forall_mem_cons.1 hts
    rw [addressesFrom, List.pairwise_append, List.pairwise_map]
    refine ⟨ht.imp fun h => List.cons_lt_cons_iff.2 (Or.inr ⟨rfl, h⟩), ih (i + 1) hts, ?_⟩
    intro p hp q hq
    obtain ⟨p, -, rfl⟩ := List.mem_map.1 hp
    obtain ⟨k, q, hk, rfl⟩ := exists_of_mem_addressesFrom hq
    exact List.cons_lt_cons_iff.2 (Or.inl hk)

/-- The addresses are listed in the order of words. -/
theorem pairwise_addresses (t : Tree) : t.addresses.Pairwise (· < ·) := by
  induction t using induct with
  | node l ts ih =>
    rw [addresses, List.pairwise_cons]
    refine ⟨fun p hp => ?_, pairwise_addressesFrom 0 ih⟩
    obtain ⟨k, q, -, rfl⟩ := exists_of_mem_addressesFrom hp
    exact List.nil_lt_cons k q

/-- What is listed first comes first in the order. -/
theorem lt_of_place_lt (hp : t.addresses[i]? = some p) (hq : t.addresses[j]? = some q)
    (hij : i < j) : p < q := by
  obtain ⟨hi, rfl⟩ := List.getElem?_eq_some_iff.1 hp
  obtain ⟨hj, rfl⟩ := List.getElem?_eq_some_iff.1 hq
  exact List.pairwise_iff_getElem.1 (pairwise_addresses t) i j hi hj hij

theorem place_lt_of_lt (hp : t.addresses[i]? = some p) (hq : t.addresses[j]? = some q)
    (hpq : p < q) : i < j := by
  rcases Nat.lt_trichotomy i j with hij | rfl | hji
  · exact hij
  · rw [hp, Option.some.injEq] at hq
    exact absurd hpq (hq ▸ lt_irrefl p)
  · exact absurd (lt_of_place_lt hq hp hji) (lt_asymm hpq)

/-! ## Parents by depth -/

/-- Between a node and its child come only nodes below the node. -/
theorem length_lt_of_between (hpq : p < q) (hqk : q < p ++ [k]) : p.length < q.length := by
  induction p generalizing q with
  | nil =>
    cases q with
    | nil => exact absurd hpq (List.not_lt_nil _)
    | cons y q => exact Nat.succ_pos _
  | cons x p ih =>
    cases q with
    | nil => exact absurd hpq (List.not_lt_nil _)
    | cons y q =>
      rw [List.cons_append] at hqk
      have hrest : p < q ∧ q < p ++ [k] := by
        rcases List.cons_lt_cons_iff.1 hpq with hxy | ⟨hxy, hpq'⟩ <;>
          rcases List.cons_lt_cons_iff.1 hqk with hyx | ⟨hyx, hqk'⟩
        · omega
        · omega
        · omega
        · exact ⟨hpq', hqk'⟩
      exact Nat.succ_lt_succ (ih hrest.1 hrest.2)

theorem lt_concat (p : List Nat) (k : Nat) : p < p ++ [k] := by
  induction p with
  | nil => exact List.nil_lt_cons k []
  | cons x p ih => exact List.cons_lt_cons_iff.2 (Or.inr ⟨rfl, ih⟩)

theorem LastSmaller.unique {ds : List Nat} (hi : LastSmaller ds i j) (hk : LastSmaller ds k j) :
    i = k := by
  obtain ⟨d, e, hij, hd, he, hde, hbetween⟩ := hi
  obtain ⟨d', e', hkj, hd', he', hde', hbetween'⟩ := hk
  obtain rfl : e = e' := Option.some.inj (he.symm.trans he')
  rcases Nat.lt_trichotomy i k with hik | rfl | hki
  · have := hbetween k d' hik hkj hd'
    omega
  · rfl
  · have := hbetween' i d hki hij hd
    omega

theorem lastSmaller_of_child (hp : t.addresses[i]? = some p)
    (hq : t.addresses[j]? = some (p ++ [k])) :
    LastSmaller (t.addresses.map List.length) i j := by
  have hij : i < j := place_lt_of_lt hp hq (lt_concat p k)
  refine ⟨p.length, p.length + 1, hij, ?_, ?_, Nat.lt_succ_self _, ?_⟩
  · rw [List.getElem?_map, hp, Option.map_some]
  · rw [List.getElem?_map, hq, Option.map_some, List.length_append, List.length_singleton]
  · intro n m hin hnj hm
    rw [List.getElem?_map] at hm
    obtain ⟨r, hr, rfl⟩ := Option.map_eq_some_iff.1 hm
    exact length_lt_of_between (lt_of_place_lt hp hr hin) (lt_of_place_lt hr hq hnj)

/-- **The last node before a node that is less deep is its parent.** -/
theorem lastSmaller_depths_iff :
    LastSmaller (t.addresses.map List.length) i j ↔
      ∃ p k, t.addresses[i]? = some p ∧ t.addresses[j]? = some (p ++ [k]) := by
  constructor
  · intro h
    have hsmaller := h
    obtain ⟨d, e, -, -, he, hde, -⟩ := hsmaller
    rw [List.getElem?_map] at he
    obtain ⟨q, hq, rfl⟩ := Option.map_eq_some_iff.1 he
    rcases List.eq_nil_or_concat q with rfl | ⟨p, k, rfl⟩
    · exact absurd hde (Nat.not_lt_zero d)
    · rw [List.concat_eq_append] at hq
      -- the parent is listed somewhere, and there is only one such place
      obtain ⟨c, -, hc⟩ := exists_node_of_getElem? hq
      rw [at?_concat] at hc
      obtain ⟨u, hu, -⟩ := Option.bind_eq_some_iff.1 hc
      obtain ⟨n, hn⟩ := List.mem_iff_getElem?.1 (mem_addresses hu)
      obtain rfl : n = i := (lastSmaller_of_child hn hq).unique h
      exact ⟨p, k, hn, hq⟩
  · rintro ⟨p, k, hp, hq⟩
    exact lastSmaller_of_child hp hq

/-! ## Parents by number -/

theorem exists_node_of_ids (ha : t.ids[i]? = some a) (hp : t.addresses[i]? = some p) :
    ∃ u, t.at? p = some u ∧ u.id = a := by
  obtain ⟨u, hu, hat⟩ := exists_node_of_getElem? hp
  rw [ids, List.getElem?_map, hu, Option.map_some, Option.some.injEq] at ha
  exact ⟨u, hat, ha⟩

/-- Where no number occurs twice, a number tells the place of its node. -/
theorem getElem?_addresses (hnd : t.ids.Nodup) (hid : t.ids[i]? = some u.id)
    (hu : t.at? p = some u) : t.addresses[i]? = some p := by
  obtain ⟨n, hn⟩ := List.mem_iff_getElem?.1 (mem_addresses hu)
  obtain ⟨v, hv, hat⟩ := exists_node_of_getElem? hn
  obtain rfl : v = u := Option.some.inj (hat.symm.trans hu)
  have hn' : t.ids[n]? = some v.id := by rw [ids, List.getElem?_map, hv, Option.map_some]
  obtain ⟨hi, -⟩ := List.getElem?_eq_some_iff.1 hid
  obtain rfl : i = n := (List.getElem?_inj hi hnd).1 (hid.trans hn'.symm)
  exact hn

/-- **Two numbers are those of a parent and a child exactly if the addresses at their places are**,
where no number occurs twice. -/
theorem mem_edges_iff (hnd : t.ids.Nodup) (ha : t.ids[i]? = some a) (hb : t.ids[j]? = some b) :
    (a, b) ∈ t.edges ↔ ∃ p k, t.addresses[i]? = some p ∧ t.addresses[j]? = some (p ++ [k]) := by
  rw [edges, List.mem_flatMap]
  constructor
  · rintro ⟨u, hu, hab⟩
    obtain ⟨c, hc, heq⟩ := List.mem_map.1 hab
    cases heq
    obtain ⟨p, hp⟩ := mem_nodes_iff_at?.1 hu
    obtain ⟨k, hk⟩ := List.mem_iff_getElem?.1 hc
    have hpk : t.at? (p ++ [k]) = some c := by rw [at?_concat, hp, Option.bind_some, hk]
    exact ⟨p, k, getElem?_addresses hnd ha hp, getElem?_addresses hnd hb hpk⟩
  · rintro ⟨p, k, hp, hq⟩
    obtain ⟨u, hu, rfl⟩ := exists_node_of_ids ha hp
    obtain ⟨c, hc, rfl⟩ := exists_node_of_ids hb hq
    rw [at?_concat, hu, Option.bind_some] at hc
    exact ⟨u, mem_nodes_iff_at?.2 ⟨p, hu⟩, List.mem_map.2 ⟨c, List.mem_of_getElem? hc, rfl⟩⟩

end Refutation.Tree
