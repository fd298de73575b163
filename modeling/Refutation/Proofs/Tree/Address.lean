import Mathlib.Data.List.Lex
import Refutation.Proofs.Tree.Graft

/-!
# Where a number is first found

A node is addressed by the positions of the children to go through from the root, and addresses
come in preorder if they are compared like words (`[]` first, `[0, 5]` before `[1]`). A number
may occur at several addresses. Search walks the flat list of nodes and replacement goes down
the tree, but both stop at the first address (`FirstAt`), and replacement touches nothing else.

* `find?_eq_some_iff`: **search finds the node at the first address.**
* `FirstAt.replace_eq`: **replacement puts the new tree at the first address.**
* `replaced_iff_eq`: what a replacement keeps and what it changes (`Replaced`).
-/

namespace Refutation.Tree

/-- The subtree at an address. -/
def at? : Tree → List Nat → Option Tree
  | t, [] => some t
  | .node _ ts, i :: p => ts[i]?.bind (at? · p)

/-- The tree with `new` at an address; unchanged if the address leads nowhere. -/
def putAt (new : Tree) : List Nat → Tree → Tree
  | [], _ => new
  | i :: p, .node l ts => .node l (ts.modify i (putAt new p))

/-- The node `u` at the address `p` has the number, and no node at an earlier address has it. -/
structure FirstAt (t : Tree) (k : Int) (p : List Nat) (u : Tree) : Prop where
  at_eq : t.at? p = some u
  id_eq : u.id = k
  earlier : ∀ q v, q < p → t.at? q = some v → v.id ≠ k

variable {t t' u c new : Tree} {l : Label} {ts : List Tree} {k : Int} {p q : List Nat} {i : Nat}

theorem at?_node_cons : (node l ts).at? (i :: p) = ts[i]?.bind (at? · p) := by
  rw [at?]

theorem at?_cons_eq_some_iff : (node l ts).at? (i :: p) = some u ↔
    ∃ c, ts[i]? = some c ∧ c.at? p = some u := by
  rw [at?_node_cons, Option.bind_eq_some_iff]

theorem putAt_cons (hc : ts[i]? = some c) :
    putAt new (i :: p) (node l ts) = node l (ts.set i (putAt new p c)) := by
  rw [putAt, List.modify_eq_set_getElem?, hc]
  rfl

theorem putAt_append_cons {before after : List Tree} :
    putAt new (before.length :: p) (node l (before ++ c :: after)) =
      node l (before ++ putAt new p c :: after) := by
  rw [putAt_cons (c := c) (by simp)]
  simp

/-- The nodes of a tree are the subtrees at its addresses. -/
theorem mem_nodes_iff_at? : u ∈ t.nodes ↔ ∃ p, t.at? p = some u := by
  induction t using induct with
  | node l ts ih =>
    rw [nodes, nodesList_eq_flatMap, List.mem_cons, List.mem_flatMap]
    constructor
    · rintro (rfl | ⟨c, hc, hu⟩)
      · exact ⟨[], rfl⟩
      · obtain ⟨i, hi⟩ := List.mem_iff_getElem?.1 hc
        obtain ⟨p, hp⟩ := (ih c hc).1 hu
        exact ⟨i :: p, at?_cons_eq_some_iff.2 ⟨c, hi, hp⟩⟩
    · rintro ⟨p, hp⟩
      cases p with
      | nil => exact Or.inl (Option.some.inj hp).symm
      | cons i p =>
        obtain ⟨c, hi, hu⟩ := at?_cons_eq_some_iff.1 hp
        have hc : c ∈ ts := List.mem_of_getElem? hi
        exact Or.inr ⟨c, hc, (ih c hc).2 ⟨p, hu⟩⟩

theorem mem_ids_iff_at? : k ∈ t.ids ↔ ∃ p u, t.at? p = some u ∧ u.id = k := by
  unfold ids
  rw [List.mem_map]
  constructor
  · rintro ⟨u, hu, hk⟩
    obtain ⟨p, hp⟩ := mem_nodes_iff_at?.1 hu
    exact ⟨p, u, hp, hk⟩
  · rintro ⟨p, u, hp, hk⟩
    exact ⟨u, mem_nodes_iff_at?.2 ⟨p, hp⟩, hk⟩

/-! ## The first address -/

theorem firstAt_nil : FirstAt (node l ts) k [] u ↔ u = node l ts ∧ l.id = k := by
  constructor
  · rintro ⟨hat, hid, -⟩
    cases hat
    exact ⟨rfl, hid⟩
  · rintro ⟨rfl, hid⟩
    exact ⟨rfl, hid, fun q v hq => absurd hq (List.not_lt_nil q)⟩

/-- The first address below the root leads through the first child that has the number. -/
theorem firstAt_cons : FirstAt (node l ts) k (i :: p) u ↔
    l.id ≠ k ∧ ∃ before c after, ts = before ++ c :: after ∧ before.length = i ∧
      (∀ s ∈ before, k ∉ s.ids) ∧ FirstAt c k p u := by
  constructor
  · rintro ⟨hat, hid, hearlier⟩
    obtain ⟨c, hc, hu⟩ := at?_cons_eq_some_iff.1 hat
    obtain ⟨hi, rfl⟩ := List.getElem?_eq_some_iff.1 hc
    have hl : l.id ≠ k := hearlier [] _ (List.nil_lt_cons i p) rfl
    refine ⟨hl, ts.take i, ts[i], ts.drop (i + 1), ?_, ?_, ?_, ?_⟩
    · rw [← List.drop_eq_getElem_cons hi, List.take_append_drop]
    · rw [List.length_take]; omega
    · intro s hs hk
      obtain ⟨j, hj, rfl⟩ := List.mem_take_iff_getElem.1 hs
      obtain ⟨q, v, hv, hvk⟩ := mem_ids_iff_at?.1 hk
      have hlt : j :: q < i :: p := List.cons_lt_cons_iff.2 (Or.inl (by omega))
      have hchild : ts[j]? = some ts[j] := List.getElem?_eq_getElem (by omega)
      exact hearlier _ v hlt (at?_cons_eq_some_iff.2 ⟨_, hchild, hv⟩) hvk
    · refine ⟨hu, hid, fun q v hq hv => ?_⟩
      have hlt : i :: q < i :: p := List.cons_lt_cons_iff.2 (Or.inr ⟨rfl, hq⟩)
      exact hearlier _ v hlt (at?_cons_eq_some_iff.2 ⟨_, hc, hv⟩)
  · rintro ⟨hl, before, c, after, rfl, rfl, hbefore, hat, hid, hearlier⟩
    refine ⟨at?_cons_eq_some_iff.2 ⟨c, by simp, hat⟩, hid, fun q v hq hv => ?_⟩
    cases q with
    | nil =>
      cases hv
      exact hl
    | cons j q =>
      obtain ⟨s, hs, hv⟩ := at?_cons_eq_some_iff.1 hv
      rcases List.cons_lt_cons_iff.1 hq with hj | ⟨rfl, hqp⟩
      · -- to the left of the child
        rw [List.getElem?_append_left hj] at hs
        intro hvk
        exact hbefore s (List.mem_of_getElem? hs) (mem_ids_iff_at?.2 ⟨q, v, hv, hvk⟩)
      · obtain rfl : c = s := by simpa using hs
        exact hearlier q v hqp hv

/-! ## Search -/

theorem find?_node : (node l ts).find? k =
    if l.id = k then some (node l ts) else ts.findSome? (find? · k) := by
  rw [find?, nodes, nodesList_eq_flatMap]
  by_cases hk : l.id = k
  · rw [if_pos hk]
    exact List.find?_cons_of_pos (beq_iff_eq.2 hk)
  · rw [if_neg hk]
    refine (List.find?_cons_of_neg ?_).trans List.find?_flatMap
    exact fun h => hk (beq_iff_eq.1 h)

theorem find?_eq_none_iff : t.find? k = none ↔ k ∉ t.ids := by
  rw [find?, ids, List.find?_eq_none, List.mem_map]
  simp

/-- **Search finds the node at the first address.** -/
theorem find?_eq_some_iff : t.find? k = some u ↔ ∃ p, FirstAt t k p u := by
  induction t using induct generalizing u with
  | node l ts ih =>
    rw [find?_node]
    by_cases hk : l.id = k
    · rw [if_pos hk, Option.some.injEq]
      constructor
      · rintro rfl
        exact ⟨[], firstAt_nil.2 ⟨rfl, hk⟩⟩
      · rintro ⟨p, hp⟩
        cases p with
        | nil => exact (firstAt_nil.1 hp).1.symm
        | cons i p => exact absurd hk (firstAt_cons.1 hp).1
    · rw [if_neg hk, List.findSome?_eq_some_iff]
      constructor
      · rintro ⟨before, c, after, rfl, hc, hbefore⟩
        obtain ⟨p, hp⟩ := (ih c (by simp)).1 hc
        refine ⟨before.length :: p, firstAt_cons.2 ⟨hk, before, c, after, rfl, rfl, ?_, hp⟩⟩
        exact fun s hs => find?_eq_none_iff.1 (hbefore s hs)
      · rintro ⟨p, hp⟩
        cases p with
        | nil => exact absurd (firstAt_nil.1 hp).2 hk
        | cons i p =>
          obtain ⟨-, before, c, after, rfl, -, hbefore, hc⟩ := firstAt_cons.1 hp
          refine ⟨before, c, after, rfl, (ih c (by simp)).2 ⟨p, hc⟩, ?_⟩
          exact fun s hs => find?_eq_none_iff.2 (hbefore s hs)

/-! ## Replacement -/

theorem replaceIn?_append_cons {before after : List Tree} {c' : Tree}
    (hbefore : ∀ s ∈ before, k ∉ s.ids) (hc : c.replace? k new = some c') :
    replaceIn? (before ++ c :: after) k new = some (before ++ c' :: after) := by
  induction before with
  | nil => rw [List.nil_append, replaceIn?, hc]; rfl
  | cons s before ih =>
    have hs : s.replace? k new = none := replace?_eq_none (hbefore s List.mem_cons_self)
    rw [List.cons_append, replaceIn?, hs, ih fun s hs => hbefore s (List.mem_cons_of_mem _ hs)]
    rfl

theorem FirstAt.replace?_eq (h : FirstAt t k p u) : t.replace? k new = some (putAt new p t) := by
  induction p generalizing t with
  | nil =>
    cases t with
    | node l ts =>
      rw [replace?, if_pos (firstAt_nil.1 h).2, putAt]
  | cons i p ih =>
    cases t with
    | node l ts =>
      obtain ⟨hl, before, c, after, rfl, rfl, hbefore, hc⟩ := firstAt_cons.1 h
      rw [replace?, if_neg hl, replaceIn?_append_cons hbefore (ih hc), putAt_append_cons]
      rfl

/-- **Replacement puts the new tree at the first address.** -/
theorem FirstAt.replace_eq (h : FirstAt t k p u) : t.replace k new = putAt new p t := by
  rw [replace, h.replace?_eq, Option.getD_some]

/-- With the number at its root, the new tree is where the number is first found. -/
theorem FirstAt.putAt (h : FirstAt t k p u) (hid : new.id = k) :
    FirstAt (putAt new p t) k p new := by
  induction p generalizing t with
  | nil =>
    cases new with
    | node l ts => exact firstAt_nil.2 ⟨rfl, hid⟩
  | cons i p ih =>
    cases t with
    | node l ts =>
      obtain ⟨hl, before, c, after, rfl, rfl, hbefore, hc⟩ := firstAt_cons.1 h
      rw [putAt_append_cons]
      exact firstAt_cons.2 ⟨hl, before, _, after, rfl, rfl, hbefore, ih hc⟩

/-! ## What is at the other addresses -/

theorem at?_putAt_append (h : t.at? p = some u) (q : List Nat) :
    (putAt new p t).at? (p ++ q) = new.at? q := by
  induction p generalizing t with
  | nil => rfl
  | cons i p ih =>
    cases t with
    | node l ts =>
      obtain ⟨c, hc, hu⟩ := at?_cons_eq_some_iff.1 h
      obtain ⟨hi, -⟩ := List.getElem?_eq_some_iff.1 hc
      rw [putAt_cons hc, List.cons_append, at?_node_cons, List.getElem?_set_self hi]
      exact ih hu

/-- Off the way to the address nothing changes. -/
theorem at?_putAt_of_apart (hp : ¬p <+: q) (hq : ¬q <+: p) : (putAt new p t).at? q = t.at? q := by
  induction p generalizing t q with
  | nil => exact absurd List.nil_prefix hp
  | cons i p ih =>
    cases q with
    | nil => exact absurd List.nil_prefix hq
    | cons j q =>
      cases t with
      | node l ts =>
        rw [putAt, at?_node_cons, at?_node_cons]
        by_cases hij : i = j
        · subst hij
          rw [List.cons_prefix_cons] at hp hq
          cases hc : ts[i]? with
          | none => simp [hc]
          | some c =>
            rw [List.getElem?_modify_eq, hc]
            exact ih (fun h => hp ⟨rfl, h⟩) fun h => hq ⟨rfl, h⟩
        · rw [List.getElem?_modify_ne _ _ hij]

/-- On the way to the address a node keeps its label and all children but one. -/
theorem at?_putAt_above {s : List Nat} (h : t.at? (q ++ i :: s) = some u) :
    ∃ l ts c, i < ts.length ∧ t.at? q = some (node l ts) ∧
      (putAt new (q ++ i :: s) t).at? q = some (node l (ts.set i c)) := by
  induction q generalizing t with
  | nil =>
    cases t with
    | node l ts =>
      obtain ⟨c, hc, -⟩ := at?_cons_eq_some_iff.1 h
      obtain ⟨hi, -⟩ := List.getElem?_eq_some_iff.1 hc
      exact ⟨l, ts, putAt new s c, hi, rfl, by rw [List.nil_append, putAt_cons hc]; rfl⟩
  | cons j q ih =>
    cases t with
    | node m ts =>
      obtain ⟨c, hc, hu⟩ := at?_cons_eq_some_iff.1 h
      obtain ⟨l, us, d, hi, hq, hput⟩ := ih hu
      obtain ⟨hj, -⟩ := List.getElem?_eq_some_iff.1 hc
      refine ⟨l, us, d, hi, at?_cons_eq_some_iff.2 ⟨c, hc, hq⟩, ?_⟩
      rw [List.cons_append, putAt_cons hc, at?_node_cons, List.getElem?_set_self hj]
      exact hput

/-! ## What a replacement is to do -/

/-- `t'` is `t` with `new` in place of the node that search finds. Where the number does not occur,
nothing changes. Otherwise the new tree stands at the first address with the number; off the way
from the root to it everything is kept, and on the way a node changes in one of its children only.
If the new tree has the number, it is what search finds then. -/
structure Replaced (t : Tree) (k : Int) (new t' : Tree) : Prop where
  absent : t.find? k = none → t' = t
  present : ∀ u, t.find? k = some u → ∃ p, FirstAt t k p u ∧
    (∀ q, t'.at? (p ++ q) = new.at? q) ∧
    (∀ q, ¬p <+: q → ¬q <+: p → t'.at? q = t.at? q) ∧
    ∀ q i s, p = q ++ i :: s → ∃ l ts c, i < ts.length ∧ t.at? q = some (node l ts) ∧
      t'.at? q = some (node l (ts.set i c))
  found : new.id = k → t'.find? k = (t.find? k).map fun _ => new

theorem replace_of_find?_eq_none (h : t.find? k = none) : t.replace k new = t := by
  rw [replace, replace?_eq_none (find?_eq_none_iff.1 h), Option.getD_none]

theorem putAt_self (h : t.at? p = some u) : putAt u p t = t := by
  induction p generalizing t with
  | nil => exact (Option.some.inj h).symm
  | cons i p ih =>
    cases t with
    | node l ts =>
      obtain ⟨c, hc, hu⟩ := at?_cons_eq_some_iff.1 h
      obtain ⟨hi, rfl⟩ := List.getElem?_eq_some_iff.1 hc
      rw [putAt_cons hc, ih hu, List.set_getElem_self]

/-- The node that search finds, put in its own place, changes nothing. -/
theorem replace_of_find?_eq_some (h : t.find? k = some u) : t.replace k u = t := by
  obtain ⟨p, hp⟩ := find?_eq_some_iff.1 h
  rw [hp.replace_eq, putAt_self hp.at_eq]

/-- **Replacement replaces the node that search finds.** -/
theorem replaced_replace (t : Tree) (k : Int) (new : Tree) :
    Replaced t k new (t.replace k new) where
  absent := replace_of_find?_eq_none
  present u hu := by
    obtain ⟨p, hp⟩ := find?_eq_some_iff.1 hu
    refine ⟨p, hp, ?_, ?_, ?_⟩ <;> rw [hp.replace_eq]
    · exact at?_putAt_append hp.at_eq
    · exact fun q => at?_putAt_of_apart
    · rintro q i s rfl
      exact at?_putAt_above hp.at_eq
  found hid := by
    cases hu : t.find? k with
    | none => rw [replace_of_find?_eq_none hu, hu, Option.map_none]
    | some u =>
      obtain ⟨p, hp⟩ := find?_eq_some_iff.1 hu
      rw [hp.replace_eq, Option.map_some]
      exact find?_eq_some_iff.2 ⟨p, hp.putAt hid⟩

/-- What stands at, off and above an address tells the whole tree. -/
theorem eq_putAt (hat : ∀ q, t'.at? (p ++ q) = new.at? q)
    (hoff : ∀ q, ¬p <+: q → ¬q <+: p → t'.at? q = t.at? q)
    (habove : ∀ q i s, p = q ++ i :: s → ∃ l ts c, i < ts.length ∧ t.at? q = some (node l ts) ∧
      t'.at? q = some (node l (ts.set i c))) : t' = putAt new p t := by
  induction p generalizing t t' with
  | nil => exact Option.some.inj (hat [])
  | cons i p ih =>
    obtain ⟨l, ts, c, hi, ht, ht'⟩ := habove [] i p rfl
    obtain rfl : t = node l ts := Option.some.inj ht
    obtain rfl : t' = node l (ts.set i c) := Option.some.inj ht'
    have hold (q : List Nat) : (node l ts).at? (i :: q) = ts[i].at? q := by
      rw [at?_node_cons, List.getElem?_eq_getElem hi]
      rfl
    have hnew (q : List Nat) : (node l (ts.set i c)).at? (i :: q) = c.at? q := by
      rw [at?_node_cons, List.getElem?_set_self hi]
      rfl
    -- the child on the way is told by what stands below it
    have hc : c = putAt new p ts[i] := by
      refine ih (fun q => ?_) (fun q hpq hqp => ?_) fun q j s hp => ?_
      · rw [← hnew, ← List.cons_append, hat]
      · rw [← hnew, ← hold]
        exact hoff _ (fun h => hpq (List.cons_prefix_cons.1 h).2)
          fun h => hqp (List.cons_prefix_cons.1 h).2
      · obtain ⟨m, us, d, hj, hq, hq'⟩ := habove (i :: q) j s (by rw [hp]; rfl)
        rw [hold] at hq
        rw [hnew] at hq'
        exact ⟨m, us, d, hj, hq, hq'⟩
    rw [putAt_cons (List.getElem?_eq_getElem hi), hc]

/-- **These properties tell the result of a replacement.** -/
theorem replaced_iff_eq : Replaced t k new t' ↔ t' = t.replace k new := by
  constructor
  · intro h
    cases hu : t.find? k with
    | none => rw [h.absent hu, replace_of_find?_eq_none hu]
    | some u =>
      obtain ⟨p, hp, hat, hoff, habove⟩ := h.present u hu
      rw [hp.replace_eq]
      exact eq_putAt hat hoff habove
  · rintro rfl
    exact replaced_replace t k new

end Refutation.Tree
