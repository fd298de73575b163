import Refutation.Proofs.Attempt.Reach
import Refutation.Proofs.Tree.Rows

/-!
# Node numbers

Whatever the rule, a step makes an open leaf into a node with at most two leaves below it, and
these get the next numbers of the supply. `Sprouts` collects what all steps have in common, the
wording of the log included, and `Coherent.advances_cases` says that a step does this or nothing.

* `Counted.of_advances`: a step keeps the numbers of the nodes without a gap.
* `Attempt.Reachable.node_numbers`: **the nodes of every attempt that can be reached bear the
  numbers handed out so far, each once, parents before children**, and there is one leaf more
  than there were steps that split a branch.
-/

namespace Refutation

/-- A node with leaves below it. -/
def Tree.withLeaves (k : Label) (cs : List Label) : Tree :=
  .node k (cs.map fun c => .node c [])

/-- The record tells of a step that split a branch. -/
def Record.splits (r : Record) : Bool :=
  r.rule ∈ [Rule.implication, .disjunction, .negatedConjunction].map Rule.name

/-- The label was closed after it had been open: a child that is closed from the start bears
the name of the closure in place of a rule. -/
structure Label.ClosedInPlace (l : Label) : Prop where
  closed : l.closed = true
  rule : l.rule ≠ some closureRule

/-- A step made the open leaf `l` into the node `k` with the leaves `cs` below it and logged this
as `r`; `num` is the number of the step, `i` the next number of a node. -/
structure Sprouts (l : Label) (num : Int) (r : Record) (i : Int) (k : Label) (cs : List Label) :
    Prop where
  opened : l.closed = false
  -- the node stays where it is and tells the step
  id : k.id = l.id
  path : k.path = l.path
  step : k.step = num
  rule : k.rule = some r.rule
  origin : ∃ e, k.origin = some e ∧ e.text = r.formula
  expanded : cs ≠ [] ∨ k.ClosedInPlace
  -- so does the record
  recordNum : r.num = num
  recordId : r.nodeId = l.id
  recordPath : r.path = l.path
  -- the children are new
  numbers : cs.map Label.id = (List.range cs.length).map fun (j : Nat) => i + j
  few : cs.length ≤ 2
  splits : r.splits = true ↔ cs.length = 2
  unexpanded : ∀ c ∈ cs, ¬ c.ClosedInPlace
  inherits : ∀ c ∈ (Tree.withLeaves k cs).leaves,
    c.instantiations = l.instantiations ++ r.instantiations

open Expand

namespace Tree

theorem ids_withLeaves (k : Label) (cs : List Label) :
    (withLeaves k cs).ids = k.id :: cs.map Label.id := by
  unfold withLeaves
  rw [ids_node, List.flatMap_map, List.map_eq_flatMap]
  simp [ids_node]

theorem rows_withLeaves (k : Label) (cs : List Label) :
    (withLeaves k cs).rows = ⟨k, cs.map Label.id⟩ :: cs.map fun c => ⟨c, []⟩ := by
  have hids : (cs.map fun c => node c []).map id = cs.map Label.id := by
    rw [List.map_map]
    rfl
  unfold withLeaves
  rw [rows_node, hids, List.flatMap_map, List.map_eq_flatMap (f := fun c => (⟨c, []⟩ : Row))]
  simp [rows_node]

theorem leaves_withLeaves (k : Label) (cs : List Label) :
    (withLeaves k cs).leaves = if cs = [] then [k] else cs := by
  cases cs with
  | nil => rfl
  | cons c cs =>
    unfold withLeaves
    rw [leaves_node k (by simp), List.flatMap_map]
    simp [leaves]

end Tree

/-! ## What all expansions have in common -/

section

variable {l : Label} {pre post : List Formula} {f w : Formula} {m : Match} {num : Int}
  {s s' : Supply} {t : Tree}

/-- A formula is expanded into two branches by the rules that split, and else into one. -/
theorem Formula.length_parts (hm : f.match? = some m) (w : Formula) :
    (f.parts w).length = if m.rule.family = .beta then 2 else 1 := by
  obtain ⟨-, -, hfam⟩ := Formula.match?_some hm
  unfold Formula.parts
  cases hs : f.shape with
  | literal => rw [hs] at hfam; cases hfam
  | _ => rw [hs] at hfam; rw [← Option.some.inj hfam]; rfl

/-- Where a branch is split, no variable is instantiated. -/
theorem Formula.performed_of_split {as bs : List Formula} (hps : f.parts w = [as, bs]) :
    f.performed w = [] := by
  unfold Formula.parts at hps
  unfold Formula.performed Formula.binding?
  cases hs : f.shape with
  | beta a b => rfl
  | _ => rw [hs] at hps; simp at hps

theorem Rule.family_eq_beta_iff (r : Rule) :
    r.family = .beta ↔ r.name ∈ [Rule.implication, .disjunction, .negatedConjunction].map Rule.name := by
  cases r <;> decide

theorem Rule.name_ne_closureRule (r : Rule) : r.name ≠ closureRule := by
  cases r <;> decide

/-- A child that a split makes was not open before. -/
theorem branchLabel_not_closedInPlace (i : Int) (es : List Entry) (turn : String)
    (reason : Option String) : ¬ (branchLabel l m num i es turn reason).ClosedInPlace := by
  intro h
  unfold branchLabel at h
  cases reason with
  | none => cases h.closed
  | some r => exact h.rule rfl

/-- **What all expansions have in common.** -/
theorem Expanded.sprouts (hp : l.Picks pre f post m) (detail after : String)
    (hx : Expanded l num f m (pre ++ post) w s t s') :
    ∃ k cs, t = .withLeaves k cs ∧ s'.nextId = s.nextId + cs.length ∧
      Sprouts l num (record (.node l []) m num detail after (f.performed w)) s.nextId k cs := by
  have hform : m.formula = .formula f := hp.formula_eq
  have hlen := Formula.length_parts hp.expands w
  have horigin : ∃ e, m.formula.present = some e ∧ e.text = m.formula.text :=
    ⟨.formula f, by rw [hform]; rfl, by rw [hform]⟩
  -- the record says that a branch was split exactly if the formula has two parts
  have hsplits : (record (.node l []) m num detail after (f.performed w)).splits = true ↔
      (f.parts w).length = 2 := by
    unfold Record.splits
    rw [decide_eq_true_iff, hlen]
    refine (Rule.family_eq_beta_iff m.rule).symm.trans ?_
    by_cases hb : m.rule.family = .beta <;> simp [hb]
  have hrule : (some m.rule.name : Option String) ≠ some closureRule :=
    fun h => Rule.name_ne_closureRule m.rule (Option.some.inj h)
  cases hx with
  | close hps hc =>
    rw [hps] at hsplits
    refine ⟨_, [], rfl, by simp, ?_⟩
    exact {
      opened := hp.opened, id := rfl, path := rfl, step := rfl, rule := rfl, origin := horigin
      expanded := Or.inr ⟨rfl, hrule⟩
      recordNum := rfl, recordId := rfl, recordPath := rfl
      numbers := rfl, few := by simp
      splits := hsplits.trans (by simp)
      unexpanded := fun c hcs => by cases hcs
      inherits := fun c hcs => by rw [List.mem_singleton.1 hcs]; rfl }
  | extend hps hc =>
    rw [hps] at hsplits
    refine ⟨_, [_], rfl, rfl, ?_⟩
    exact {
      opened := hp.opened, id := rfl, path := rfl, step := rfl, rule := rfl, origin := horigin
      expanded := Or.inl (by simp)
      recordNum := rfl, recordId := rfl, recordPath := rfl
      numbers := by simp [childLabel], few := by simp
      splits := hsplits
      unexpanded := fun c hcs h => by rw [List.mem_singleton.1 hcs] at h; cases h.closed
      inherits := fun c hcs => by rw [List.mem_singleton.1 hcs]; rfl }
  | @branch as bs hps =>
    have hperf := Formula.performed_of_split hps
    have hid : ∀ i es turn reason, (branchLabel l m num i es turn reason).id = i := by
      intro i es turn reason
      unfold branchLabel
      cases reason <;> rfl
    have hinsts : ∀ i es turn reason,
        (branchLabel l m num i es turn reason).instantiations = l.instantiations := by
      intro i es turn reason
      unfold branchLabel
      cases reason <;> rfl
    rw [hps] at hsplits
    refine ⟨_, [_, _], rfl, by simp only [List.length_cons, List.length_nil]; omega, ?_⟩
    exact {
      opened := hp.opened, id := rfl, path := rfl, step := rfl, rule := rfl, origin := horigin
      expanded := Or.inl (by simp)
      recordNum := rfl, recordId := rfl, recordPath := rfl
      numbers := by
        simp only [List.map_cons, List.map_nil, hid, List.length_cons, List.length_nil]
        simp [List.range_succ]
      few := by simp
      splits := hsplits
      unexpanded := by
        simp only [List.forall_mem_cons]
        exact ⟨branchLabel_not_closedInPlace _ _ _ _, branchLabel_not_closedInPlace _ _ _ _, by simp⟩
      inherits := by
        rw [Tree.leaves_withLeaves, if_neg (by simp)]
        simp only [List.forall_mem_cons, hinsts]
        show l.instantiations = l.instantiations ++ f.performed w ∧ _
        simp [record, hperf] }

end

/-! ## Steps in rows -/

namespace Sprouts

variable {l k : Label} {num i j : Int} {r : Record} {cs : List Label}

/-- The numbers of the children are the next ones. -/
theorem mem_numbers (h : Sprouts l num r i k cs) :
    j ∈ cs.map Label.id ↔ i ≤ j ∧ j < i + cs.length := by
  rw [h.numbers, List.mem_map]
  constructor
  · rintro ⟨a, ha, rfl⟩
    rw [List.mem_range] at ha
    omega
  · intro hj
    refine ⟨(j - i).toNat, ?_, ?_⟩
    · rw [List.mem_range]; omega
    · omega

/-- A step makes a leaf into one leaf, or into two if it splits a branch. -/
theorem length_leaves (h : Sprouts l num r i k cs) :
    (Tree.withLeaves k cs).leaves.length = if r.splits then 2 else 1 := by
  rw [Tree.leaves_withLeaves]
  have hfew := h.few
  have hsplits := h.splits
  by_cases hr : r.splits = true
  · have hlen := hsplits.1 hr
    have hne : cs ≠ [] := by
      intro hnil
      rw [hnil] at hlen; cases hlen
    rw [if_neg hne, if_pos hr, hlen]
  · have hlen : cs.length ≠ 2 := fun h2 => hr (hsplits.2 h2)
    rw [if_neg hr]
    by_cases hnil : cs = []
    · rw [if_pos hnil]; rfl
    · have hpos := List.length_pos_iff.2 hnil
      rw [if_neg hnil]
      omega

end Sprouts

namespace Attempt

variable {goal : Formula} {a b : Attempt} {o : Outcome} {n : Int} {p : WitnessPolicy}

/-- What a step does to tree, log and supply of numbers, if it does anything. -/
structure Grows (a b : Attempt) (l : Label) (r : Record) (k : Label) (cs : List Label) : Prop where
  sprouts : Sprouts l b.step r a.supply.nextId k cs
  graft : Tree.Graft (.node l []) (.withLeaves k cs) a.root b.root
  nextId : b.supply.nextId = a.supply.nextId + cs.length
  log : b.log = a.log ++ [r]
  step : b.step = a.step + 1

/-- **A step makes a leaf into a node with leaves below it, or leaves everything as it is.** -/
theorem Coherent.advances_cases (h : a.Coherent goal) (hadv : a.Advances b o) :
    (b.root = a.root ∧ b.supply = a.supply ∧ b.log = a.log ∧ b.step = a.step) ∨
      ∃ l r k cs, a.Grows b l r k cs := by
  cases hadv with
  | exhausted hn => exact Or.inl ⟨rfl, rfl, rfl, rfl⟩
  | limit hn hl hs => exact Or.inl ⟨rfl, rfl, rfl, rfl⟩
  | @applied l pre post f w m s e _ detail after hn hl hs hmem hp hd hr hx =>
    obtain ⟨k, cs, htree, hnext, hsp⟩ := hx.sprouts hp detail after
    have hsn := Supply.draw_nextId hd
    rw [hsn, ← hr] at hsp
    right
    refine ⟨l, e.record, k, cs, hsp, ?_, ?_, rfl, rfl⟩
    · rw [← htree]
      exact Tree.graft_replace h.nodup hmem
    · rw [← hsn]
      exact hnext

namespace Grows

variable {l k : Label} {r : Record} {cs : List Label}

theorem mem_ids (h : a.Grows b l r k cs) {i : Int} :
    i ∈ b.root.ids ↔ i ∈ a.root.ids ∨ i ∈ cs.map Label.id := by
  obtain ⟨before, after, h1, h2⟩ := h.graft.ids_eq
  rw [h1, h2, Tree.ids_withLeaves, h.sprouts.id]
  simp only [Tree.ids_node, List.flatMap_nil, List.append_assoc, List.cons_append, List.nil_append,
    List.mem_append, List.mem_cons]
  tauto

/-- A step changes the row of the leaf and adds those of its children. -/
theorem rows_eq (h : a.Grows b l r k cs) :
    ∃ before after, a.root.rows = before ++ ⟨l, []⟩ :: after ∧
      b.root.rows = before ++ (⟨k, cs.map Label.id⟩ :: cs.map fun c => ⟨c, []⟩) ++ after := by
  obtain ⟨before, after, h1, h2⟩ := h.graft.rows_eq h.sprouts.id
  rw [Tree.rows_withLeaves] at h2
  rw [Tree.rows_node] at h1
  exact ⟨before, after, by simpa using h1, h2⟩

theorem id_mem_ids (h : a.Grows b l r k cs) : l.id ∈ a.root.ids :=
  Tree.id_mem_ids h.graft.mem_nodes

end Grows

/-- The nodes bear the numbers handed out so far, each step handed out at most two, and each
split made one leaf more. -/
structure Counted (a : Attempt) : Prop where
  ids : ∀ i, i ∈ a.root.ids ↔ 0 ≤ i ∧ i < a.supply.nextId
  order : ∀ x ∈ a.root.rows, ∀ i ∈ x.children, x.label.id < i
  bound : a.supply.nextId ≤ 2 * a.step + 1
  leaves : a.root.leaves.length = 1 + a.log.countP Record.splits

theorem Counted.initial (goal : Formula) (n : Int) (p : WitnessPolicy) :
    (Attempt.initial goal (.steps n) p).Counted := by
  refine ⟨fun i => ?_, ?_, ?_, rfl⟩
  · simp only [Attempt.initial, Tree.ids_node, rootLabel, List.flatMap_nil, List.mem_singleton]
    omega
  · simp [Attempt.initial, Tree.rows_node]
  · simp [Attempt.initial]

/-- A step that makes a leaf into a node keeps the count. -/
theorem Counted.of_grows {l k : Label} {r : Record} {cs : List Label} (h : a.Counted)
    (hg : a.Grows b l r k cs) : b.Counted := by
  have hsp := hg.sprouts
  have hnext := hg.nextId
  have hstep := hg.step
  have hl := (h.ids l.id).1 hg.id_mem_ids
  refine ⟨fun i => ?_, ?_, ?_, ?_⟩
  · rw [hg.mem_ids, h.ids, hsp.mem_numbers, hnext]
    omega
  · obtain ⟨before, after, h1, h2⟩ := hg.rows_eq
    have horder := h.order
    rw [h1] at horder
    intro x hx i hi
    rw [h2] at hx
    simp only [List.mem_append, List.mem_cons, List.mem_map] at hx
    rcases hx with (hx | rfl | ⟨c, -, rfl⟩) | hx
    · exact horder x (List.mem_append_left _ hx) i hi
    · -- the children are numbered after all nodes, so after their parent
      have hi' := hsp.mem_numbers.1 hi
      show k.id < i
      rw [hsp.id]
      omega
    · cases hi
    · exact horder x (List.mem_append_right _ (List.mem_cons_of_mem _ hx)) i hi
  · have hbound := h.bound
    have hfew := hsp.few
    omega
  · obtain ⟨before, after, h1, h2⟩ := hg.graft.leaves_eq
    have hleaves := h.leaves
    have hlen := hsp.length_leaves
    rw [h1] at hleaves
    simp only [Tree.leaves, List.length_append, List.length_singleton] at hleaves
    rw [h2, hg.log, List.countP_append, List.countP_singleton, List.length_append,
      List.length_append, hlen]
    split <;> omega

/-- **A step keeps the count.** -/
theorem Counted.of_advances (hc : a.Coherent goal) (h : a.Counted) (hadv : a.Advances b o) :
    b.Counted := by
  rcases hc.advances_cases hadv with ⟨hroot, hsupply, hlog, hstep⟩ | ⟨l, r, k, cs, hg⟩
  · exact ⟨by rw [hroot, hsupply]; exact h.ids, by rw [hroot]; exact h.order,
      by rw [hsupply, hstep]; exact h.bound, by rw [hroot, hlog]; exact h.leaves⟩
  · exact h.of_grows hg

theorem Reachable.counted (h : Reachable goal n p a) : a.Counted :=
  h.invariant (.initial goal n p) fun _ _ _ hr hc hadv => hc.of_advances hr.coherent.1 hadv

/-- **The nodes of every attempt that can be reached bear the numbers handed out so far**, each
number once and a child's after its parent's. At most two numbers are handed out at a step, and
there is one leaf more than there were steps that split a branch. -/
theorem Reachable.node_numbers (h : Reachable goal n p a) :
    a.root.ids.Nodup ∧
    (∀ i, i ∈ a.root.ids ↔ 0 ≤ i ∧ i < a.supply.nextId) ∧
    (∀ u ∈ a.root.nodes, ∀ c ∈ u.children, u.id < c.id) ∧
    a.supply.nextId ≤ 2 * a.step + 1 ∧
    a.root.leaves.length = 1 + a.log.countP Record.splits := by
  have hcount := h.counted
  refine ⟨h.coherent.1.nodup, hcount.ids, fun u hu c hc => ?_, hcount.bound, hcount.leaves⟩
  exact hcount.order u.row (Tree.row_mem_rows hu) c.id (List.mem_map_of_mem hc)

/-- Two disjunctions, the second on the right of the first: five nodes, two splits and three
leaves after two steps, when the numbers reach their bound. -/
theorem Reachable.node_numbers_disjunctions :
    let A : Formula := .const "A" .truth
    let B : Formula := .const "B" .truth
    let goal : Formula := .not (.or A (.or B A))
    let a := (Attempt.initial goal (.steps 5) .byName).run.attempt
    Reachable goal 5 .byName a ∧ a.root.ids = [0, 1, 2, 3, 4] ∧ a.supply.nextId = 2 * a.step + 1 ∧
      a.root.leaves.length = 3 ∧ a.log.countP Record.splits = 2 ∧
      (∀ u ∈ a.root.nodes, ∀ c ∈ u.children, u.id < c.id) := by
  intro A B goal a
  have hreach : Reachable goal 5 .byName a := (run_spec goal 5 .byName).1
  exact ⟨hreach, by decide, by decide, by decide, by decide, hreach.node_numbers.2.2.1⟩

end Attempt

end Refutation
