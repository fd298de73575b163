import Refutation.Proofs.Attempt.Reach

/-!
# The layout of a proof tree

At every point of a run a node has been expanded or is a leaf, and its label tells which. An
expanded node holds no formulas, and its path goes on to a single child or forks to the left
and to the right (`Tree.Forks`). A leaf carries the verdict of the closure test on exactly
the formulas it holds (`Label.Judged`). Since paths part at every fork and never meet again,
they tell the leaves apart.

* `Grown.forks_or_judged`: every node of a grown tree is one or the other.
* `Grown.pairwise_leaves`: **no leaf's path goes on with that of another.**
* `Attempt.Reachable.tree_layout`: so it is in every attempt that can be reached.
-/

namespace Refutation

/-- The label carries the verdict of the closure test on its formulas. -/
structure Label.Judged (l : Label) : Prop where
  reason : Entry.contradiction l.formulas = .ok l.closureReason
  closed : l.closed = l.closureReason.isSome
  status : l.status = if l.closed then .closedLeaf else .openLeaf

/-- The node was expanded, and its path goes on below it or forks. -/
structure Tree.Forks (t : Tree) : Prop where
  formulas : t.label.formulas = []
  closed : t.label.closed = false
  status : t.label.status = .inner
  paths : (∃ c, t.children = [c] ∧ c.label.path = t.label.path) ∨
    ∃ c d, t.children = [c, d] ∧ c.label.path = t.label.path ++ ["left"] ∧
      d.label.path = t.label.path ++ ["right"]

open Expand

theorem Label.Settled.judged {l : Label} {fs : List Formula} (h : l.Settled fs) : l.Judged := by
  refine ⟨?_, ?_, h.status⟩
  · rw [h.formulas, h.reason, Entry.contradiction_formulas]
  · rw [h.closed, h.reason]

theorem branchLabel_path (l : Label) (m : Match) (num i : Int) (es : List Entry) (turn : String)
    (reason : Option String) :
    (branchLabel l m num i es turn reason).path = l.path ++ [turn] := by
  unfold branchLabel
  cases reason <;> rfl

/-- Behind different turns neither path goes on with the other. -/
theorem not_prefix_of_turns {path as bs : List String} {x y : String} (hxy : x ≠ y)
    (ha : path ++ [x] <+: as) (hb : path ++ [y] <+: bs) : ¬ as <+: bs := by
  intro hab
  have hlen : (path ++ [x]).length = (path ++ [y]).length := by simp
  have heq : path ++ [x] = path ++ [y] :=
    (List.prefix_of_prefix_length_le (ha.trans hab) hb (Nat.le_of_eq hlen)).eq_of_length hlen
  exact hxy (by simpa using heq)

namespace Grown

variable {p : WitnessPolicy} {ws : Table} {log : List Record} {l : Label} {t : Tree}

/-- A node keeps its path when it is expanded or closed. -/
theorem path_eq (h : Grown p ws log l t) : t.label.path = l.path := by
  cases h <;> rfl

/-- **Every node of a grown tree forks or is judged.** -/
theorem forks_or_judged {u : Tree} (h : Grown p ws log l t) (hu : u ∈ t.nodes) :
    (u.children ≠ [] → u.Forks) ∧ (u.children = [] → u.label.Judged) := by
  induction h with
  | @leaf l fs h =>
    obtain rfl := List.mem_singleton.1 hu
    exact ⟨fun hc => absurd rfl hc, fun _ => h.judged⟩
  | @close l pre post ps f w m num reason hp hw hl hps hc =>
    obtain rfl := List.mem_singleton.1 hu
    refine ⟨fun hc => absurd rfl hc, fun _ => ⟨?_, rfl, rfl⟩⟩
    show Entry.contradiction ((ps ++ (pre ++ post)).map .formula) = .ok (some reason)
    rw [Entry.contradiction_formulas, hc]
  | @extend l pre post ps f w m num id t hp hw hl hps ht ih =>
    have hu' : u = .node (expandedLabel l m num) [t] ∨ u ∈ t.nodes := by
      simpa [Tree.nodes] using hu
    rcases hu' with rfl | hu
    · have hpath : t.label.path = l.path := ht.path_eq
      refine ⟨fun _ => ⟨rfl, hp.opened, rfl, ?_⟩, fun hc => by cases hc⟩
      exact Or.inl ⟨t, rfl, hpath⟩
    · exact ih hu
  | @branch l pre post as bs f w m num i j t u' hp hw hl hps ht hu' iht ihu =>
    have hmem : u = .node (expandedLabel l m num) [t, u'] ∨ u ∈ t.nodes ∨ u ∈ u'.nodes := by
      simpa [Tree.nodes] using hu
    rcases hmem with rfl | hu | hu
    · -- the children were given their turns when they were made
      have hleft : t.label.path = l.path ++ ["left"] :=
        ht.path_eq.trans (branchLabel_path ..)
      have hright : u'.label.path = l.path ++ ["right"] :=
        hu'.path_eq.trans (branchLabel_path ..)
      refine ⟨fun _ => ⟨rfl, hp.opened, rfl, ?_⟩, fun hc => by cases hc⟩
      exact Or.inr ⟨t, u', rfl, hleft, hright⟩
    · exact iht hu
    · exact ihu hu

/-- The path of a leaf goes on with the path of the root. -/
theorem path_prefix {k : Label} (h : Grown p ws log l t) (hk : k ∈ t.leaves) :
    l.path <+: k.path := by
  induction h with
  | leaf h =>
    obtain rfl := List.mem_singleton.1 hk
    exact List.prefix_rfl
  | close hp hw hl hps hc =>
    obtain rfl := List.mem_singleton.1 hk
    exact List.prefix_rfl
  | extend hp hw hl hps ht ih => exact ih (by simpa [Tree.leaves] using hk)
  | @branch l pre post as bs f w m num i j t u hp hw hl hps ht hu iht ihu =>
    have hk' : k ∈ t.leaves ∨ k ∈ u.leaves := by simpa [Tree.leaves] using hk
    have hturn : ∀ i es turn reason, l.path <+: (branchLabel l m num i es turn reason).path := by
      intro i es turn reason
      rw [branchLabel_path]
      exact List.prefix_append _ _
    rcases hk' with hk | hk
    · exact (hturn i _ "left" _).trans (iht hk)
    · exact (hturn j _ "right" _).trans (ihu hk)

/-- **No leaf's path goes on with that of another.** -/
theorem pairwise_leaves (h : Grown p ws log l t) :
    t.leaves.Pairwise fun k k' => ¬ k.path <+: k'.path ∧ ¬ k'.path <+: k.path := by
  induction h with
  | leaf h => exact List.pairwise_singleton _ _
  | close hp hw hl hps hc => exact List.pairwise_singleton _ _
  | extend hp hw hl hps ht ih => simpa [Tree.leaves] using ih
  | @branch l pre post as bs f w m num i j t u hp hw hl hps ht hu iht ihu =>
    have hleaves : (Tree.node (expandedLabel l m num) [t, u]).leaves = t.leaves ++ u.leaves := by
      simp [Tree.leaves]
    rw [hleaves, List.pairwise_append]
    refine ⟨iht, ihu, fun k hk k' hk' => ?_⟩
    have hleft : l.path ++ ["left"] <+: k.path := by
      rw [← branchLabel_path l m num i _ "left"]
      exact ht.path_prefix hk
    have hright : l.path ++ ["right"] <+: k'.path := by
      rw [← branchLabel_path l m num j _ "right"]
      exact hu.path_prefix hk'
    exact ⟨not_prefix_of_turns (by decide) hleft hright,
      not_prefix_of_turns (by decide) hright hleft⟩

end Grown

/-- **In every attempt that can be reached, each node forks or is judged**, the tree shows its
shape already, and no leaf's path goes on with that of another. -/
theorem Attempt.Reachable.tree_layout {goal : Formula} {n : Int} {p : WitnessPolicy} {a : Attempt}
    (h : Reachable goal n p a) :
    (∀ u ∈ a.root.nodes,
      (u.children ≠ [] → u.Forks) ∧ (u.children = [] → u.label.Judged)) ∧
    a.root.classify = a.root ∧
    a.root.leaves.Pairwise fun k k' => ¬ k.path <+: k'.path ∧ ¬ k'.path <+: k.path := by
  have hgrown := h.coherent.1.grown
  exact ⟨fun u hu => hgrown.forks_or_judged hu, hgrown.classify_eq, hgrown.pairwise_leaves⟩

/-- A disjunction with a conjunction on its right: the path forks once, and on the right it
goes on to a child. -/
theorem Attempt.Reachable.tree_layout_disjunction :
    let A : Formula := .const "A" .truth
    let B : Formula := .const "B" .truth
    let goal : Formula := .not (.or A (.and B A))
    let a := (Attempt.initial goal (.steps 5) .byName).run.attempt
    Reachable goal 5 .byName a ∧ a.root.nodes.length = 4 ∧
      a.root.leaves.map Label.path = [["root", "left"], ["root", "right"]] ∧
      (∀ u ∈ a.root.nodes,
        (u.children ≠ [] → u.Forks) ∧ (u.children = [] → u.label.Judged)) := by
  intro A B goal a
  have hreach : Reachable goal 5 .byName a := (run_spec goal 5 .byName).1
  exact ⟨hreach, by decide, by decide, hreach.tree_layout.1⟩

end Refutation
