import Refutation.Proofs.Attempt.Freshness
import Refutation.Proofs.Formula.Substitution

/-!
# Free variables

A quantifier rule lays bare the body of a quantifier and puts a witness for the bound variable at
once. The witness is a constant, so nothing becomes free by it, and no quantifier of the body can
capture anything: names need not be kept apart for this, the same name may be bound again inside
and be free elsewhere.

* `Reachable.entries`: what expansions keep holds of all that stands on the nodes, which is
  formulas only.
* `Reachable.freeVars_of_goal`: **every variable free on the tree is free in the goal, and no
  replacement of a run captures anything.**
-/

namespace Refutation

open Expand

/-- The label holds formulas and nothing else, and tells from which formula it comes. -/
structure Label.Formulaic (l : Label) : Prop where
  formulas : ∃ fs : List Formula, l.formulas = fs.map .formula
  origin : ∃ f : Formula, l.origin = some (.formula f)

section

variable {p : WitnessPolicy} {ws : Table} {log : List Record} {l : Label} {t u : Tree}
  {Q : Formula → Prop}

/-- No plain value comes into a grown tree. -/
theorem Grown.formulaic (h : Grown p ws log l t) (hl : l.Formulaic) (hu : u ∈ t.nodes) :
    u.label.Formulaic := by
  refine h.of_mem_nodes (fun l k _ hs => ?_) hl hu
  obtain ⟨hp, hw, horigin, hnone | ⟨ps, hps, hfs⟩, -⟩ := hs
  · exact ⟨⟨[], hnone⟩, _, horigin⟩
  · exact ⟨⟨_, hfs⟩, _, horigin⟩

end

namespace Attempt

variable {goal : Formula} {a : Attempt} {n : Int} {p : WitnessPolicy} {Q : Formula → Prop} {u : Tree}

/-- **What expansions keep holds of all that stands on the nodes of an attempt**, if it holds of
the goal and of its negation: of every formula a node holds, and of the one it comes from. -/
theorem Reachable.entries (h : Reachable goal n p a) (hQ : Hereditary p a.supply.witnesses Q)
    (hneg : Q goal.negate) (hgoal : Q goal) (hu : u ∈ a.root.nodes) :
    (∀ e ∈ u.label.formulas, ∃ f, e = .formula f ∧ Q f) ∧
      ∃ f, u.label.origin = some (.formula f) ∧ Q f := by
  obtain ⟨hcoh, -, rfl⟩ := h.coherent
  have hroot : (rootLabel goal).Throughout Q := by
    refine ⟨Attempt.rootLabel_all.2 hneg, fun f hf => ?_⟩
    cases hf
    exact hgoal
  have hthrough := hcoh.grown.throughout hQ hroot hu
  obtain ⟨⟨fs, hfs⟩, f, hf⟩ := hcoh.grown.formulaic ⟨⟨[goal.negate], rfl⟩, goal, rfl⟩ hu
  refine ⟨fun e he => ?_, f, hf, hthrough.origin f hf⟩
  rw [hfs] at he
  obtain ⟨g, hg, rfl⟩ := List.mem_map.1 he
  exact ⟨g, rfl, hthrough.all g (by rw [hfs]; exact List.mem_map_of_mem hg)⟩

/-- The next step puts `w` for the variable `x` in `body`. -/
def Replaces (a : Attempt) (x : String) (body w : Formula) : Prop :=
  ∃ b t m e τ keep, a.advance = .ok (b, .applied t m e) ∧
    m.move = .instantiate (some x) τ (.formula body) keep ∧
    (a.supply.witness (a.policy.key (some x) m.formula.text t.label.path) τ).1 = w

end Attempt

theorem Formula.binding?_of_move {f : Formula} {m : Match} {x : String} {τ : Ty} {body : Entry}
    {keep : Bool} (hm : f.match? = some m) (hmove : m.move = .instantiate (some x) τ body keep) :
    f.binding? = some (x, τ) := by
  obtain ⟨-, hshape, -⟩ := Formula.match?_some hm
  rw [hmove] at hshape
  unfold Formula.binding?
  cases hs : f.shape with
  | literal => rw [hs] at hshape; cases hshape
  | alpha ps => rw [hs] at hshape; cases hshape
  | beta a b => rw [hs] at hshape; cases hshape
  | gamma k y σ b => rw [hs] at hshape; cases hshape; rfl
  | delta y σ b => rw [hs] at hshape; cases hshape; rfl

namespace Attempt

variable {goal : Formula} {a : Attempt} {n : Int} {p : WitnessPolicy}

/-- **What a step puts for a variable is a constant.** -/
theorem Reachable.exists_const_of_replaces (h : Reachable goal n p a) {x : String}
    {body w : Formula} (hr : a.Replaces x body w) : ∃ c τ, w = .const c τ := by
  obtain ⟨b, t, m, e, τ, keep, hb, hmove, rfl⟩ := hr
  cases h.advances hb with
  | @applied l pre post f w _ s _ _ detail after hn hl hs hmem hp hd hr hx =>
    have hbind := Formula.binding?_of_move hp.expands hmove
    have hdraw : a.supply.draw a.policy l.path f =
        a.supply.witness (a.policy.key (some x) f.text l.path) τ := by
      unfold Supply.draw
      rw [hbind]
    obtain ⟨c, σ, hw⟩ := h.coherent.1.numbered.draw_const hd (by rw [hbind]; simp)
    refine ⟨c, σ, ?_⟩
    rw [hp.formula_eq]
    show (a.supply.witness (a.policy.key (some x) f.text l.path) τ).1 = _
    rw [← hdraw, hd, hw]

/-- **No variable becomes free.** Every variable free in a formula on the tree, or in the formula a
node comes from, is free in the goal, so a closed goal gives closed formulas only; and what a step
puts for a bound variable is a constant, so that no quantifier captures anything. -/
theorem Reachable.freeVars_of_goal (h : Reachable goal n p a) :
    (∀ u ∈ a.root.nodes,
      (∀ e ∈ u.label.formulas, ∃ f, e = .formula f ∧ f.freeVars ⊆ goal.freeVars) ∧
      ∃ f, u.label.origin = some (.formula f) ∧ f.freeVars ⊆ goal.freeVars) ∧
    (goal.freeVars = [] → ∀ u ∈ a.root.nodes,
      (∀ e ∈ u.label.formulas, ∃ f, e = .formula f ∧ f.freeVars = []) ∧
      ∃ f, u.label.origin = some (.formula f) ∧ f.freeVars = []) ∧
    ∀ x body w, a.Replaces x body w → (∃ c τ, w = .const c τ) ∧ body.captures x w = false := by
  have hnumbered := h.coherent.1.numbered
  have hQ : Hereditary p a.supply.witnesses fun f => f.freeVars ⊆ goal.freeVars := by
    intro f w path hf hw ps hps g hg
    have hfree := freeVars_subset_of_mem_parts (hnumbered.exists_const hw) hps hg
    exact List.Subset.trans hfree hf
  have hneg : goal.negate.freeVars ⊆ goal.freeVars :=
    (Formula.negate_iff (Q := fun f => f.freeVars ⊆ goal.freeVars) (fun _ => Iff.rfl) goal).2
      (List.Subset.refl _)
  have hall := fun u hu => h.entries (u := u) hQ hneg (List.Subset.refl _) hu
  refine ⟨hall, fun hclosed u hu => ?_, fun x body w hr => ?_⟩
  · rw [hclosed] at hall
    obtain ⟨hforms, f, hf, hfree⟩ := hall u hu
    refine ⟨fun e he => ?_, f, hf, List.subset_nil.1 hfree⟩
    obtain ⟨g, rfl, hg⟩ := hforms e he
    exact ⟨g, rfl, List.subset_nil.1 hg⟩
  · obtain ⟨c, τ, rfl⟩ := h.exists_const_of_replaces hr
    exact ⟨⟨c, τ, rfl⟩, Formula.captures_eq_false x rfl body⟩

/-- One name is bound twice, once inside the scope of the other, and `z` is free: the first step
puts a witness for the outer `x` only, and at the end of the run `z` alone is free. -/
theorem Reachable.freeVars_of_goal_rebound :
    let P : Formula := .const "P" (.fn .individual .truth)
    let x : Formula := .var "x" .individual
    let z : Formula := .var "z" .individual
    let body : Formula := .and (.eq x z) (.ex "x" .individual (.app P x))
    let goal : Formula := .not (.ex "x" .individual body)
    let a := Attempt.initial goal (.steps 5) .byName
    Reachable goal 5 .byName a.run.attempt ∧ goal.freeVars = ["z"] ∧
      (∀ u ∈ a.run.attempt.root.nodes, ∀ e ∈ u.label.formulas,
        ∃ f, e = .formula f ∧ f.freeVars ⊆ ["z"]) ∧
      a.Replaces "x" body (.const "c1" .individual) ∧
      body.captures "x" (.const "c1" .individual) = false := by
  intro P x z body goal a
  have hend : Reachable goal 5 .byName a.run.attempt := (run_spec goal 5 .byName).1
  have hfirst : a.Replaces "x" body (.const "c1" .individual) :=
    ⟨_, _, _, _, _, _, rfl, rfl, rfl⟩
  have hstart : Reachable goal 5 .byName a := .initial
  refine ⟨hend, rfl, fun u hu => (hend.freeVars_of_goal.1 u hu).1, hfirst, ?_⟩
  exact (hstart.freeVars_of_goal.2.2 _ _ _ hfirst).2

end Attempt

end Refutation
