import Refutation.Proofs.Attempt.Budget
import Refutation.Proofs.Attempt.Layout

/-!
# A universal formula captures the run

A universal formula is kept in front of its instance, so the first one that is instantiated without
closing its leaf is found again on the child that was made, and its witness is in the table by then.
From there on the run only adds the same instance again, each time on the child made by the step
before (`Attempt.runFor_repeats`). All other formulas and leaves wait for ever, also where they
would close the tree.

What a captured search finds does not depend on the budget, so no budget is large enough
(`Attempt.Captured.stepLimitReached_of_budget`).

* `Attempt.Reachable.universal_captures`: **the first universal formula that does not close its leaf
  captures the run.**
-/

namespace Refutation

open Expand Formula

/-- The later step expands the only child that the earlier one made. -/
def Outcome.LeadsInto (o o' : Outcome) : Prop :=
  ∃ t m e, o' = .applied t m e ∧ o.made = [t]

section

variable {goal b f w : Formula} {n : Int} {p : WitnessPolicy} {a a' : Attempt} {o : Outcome}
  {x c : String} {τ σ : Ty} {l k : Label} {m : Match} {num : Int} {rest : List Formula}
  {s s' : Supply} {t : Tree} {e : Expansion} {before after : List Label}

/-! ## The first step -/

/-- Only universal formulas have the universal rule. -/
theorem Formula.eq_all_of_match? (h : f.match? = some m) (hm : m.rule = .universal) :
    ∃ x τ b, f = .all x τ b := by
  unfold match? at h
  split at h <;> cases h <;> cases hm
  exact ⟨_, _, _, rfl⟩

/-- A universal formula that leaves children has closed nothing. -/
theorem Expanded.contradiction?_of_children (hx : Expanded l num (.all x τ b) m rest w s t s')
    (ht : t.children ≠ []) : contradiction? (.all x τ b :: b.subst x w :: rest) = none := by
  have hparts : (Formula.all x τ b).parts w = [[.all x τ b, b.subst x w]] := rfl
  cases hx with
  | close hps hc => exact absurd rfl ht
  | extend hps hc =>
    rw [hparts] at hps
    cases hps
    exact hc
  | branch hps =>
    rw [hparts] at hps
    cases hps

theorem Tree.leaves_of_child (h : t.children = [.node k []]) : t.leaves = [k] := by
  obtain ⟨l, ts⟩ := t
  obtain rfl : ts = [.node k []] := h
  rfl

namespace Attempt

/-- **A universal formula that leaves children captures the search.** -/
theorem Reachable.captured_of_children (h : Reachable goal n p a)
    (hadv : a.Advances a' (.applied t m e)) (hu : m.rule = .universal)
    (hc : e.tree.children ≠ []) :
    ∃ x τ b c σ, a'.Captured x τ b c σ ∧ (Outcome.applied t m e).Eliminates x τ b c σ ∧
      ∃ k, (Outcome.applied t m e).HandsOn k a' := by
  obtain ⟨hcoh, -, -⟩ := h.coherent
  cases hadv with
  | applied hn hl hs hmem hp hd hr hx =>
    obtain ⟨x, τ, b, rfl⟩ := eq_all_of_match? hp.expands hu
    obtain ⟨c, σ, rfl⟩ := hcoh.numbered.draw_const hd (by simp [binding?, shape, Shape.binding?])
    exact ⟨x, τ, b, c, σ, hcoh.captured hn hmem hp hd hr hx (hx.contradiction?_of_children hc)⟩

/-! ## Leaves -/

theorem Reachable.nodup_leaves (h : Reachable goal n p a) : a.root.leaves.Nodup := by
  refine h.coherent.1.grown.pairwise_leaves.imp ?_
  rintro k k' ⟨hk, -⟩ rfl
  exact hk List.prefix_rfl

/-- A closed node is a leaf. -/
theorem Reachable.mem_nodes_iff_of_closed (h : Reachable goal n p a) {v : Tree}
    (hv : v.label.closed = true) :
    v ∈ a.root.nodes ↔ v.children = [] ∧ v.label ∈ a.root.leaves := by
  constructor
  · intro hmem
    have hleaf : v.children = [] := by
      by_contra hc
      have hopen := ((h.coherent.1.grown.forks_or_judged hmem).1 hc).closed
      exact absurd (hv.symm.trans hopen) Bool.noConfusion
    refine ⟨hleaf, Tree.mem_leaves_of_mem_nodes ?_⟩
    obtain ⟨l, ts⟩ := v
    obtain rfl : ts = [] := hleaf
    exact hmem
  · rintro ⟨hleaf, hmem⟩
    obtain ⟨l, ts⟩ := v
    obtain rfl : ts = [] := hleaf
    exact Tree.mem_nodes_of_mem_leaves hmem

/-- A step that makes one child puts it in the place of the leaf. -/
theorem Reachable.leaves_of_child (h : Reachable goal n p a)
    (hadv : a.Advances a' (.applied (.node l []) m e)) (hc : e.tree.children = [.node k []])
    (hleaves : a.root.leaves = before ++ l :: after) :
    a'.root.leaves = before ++ k :: after := by
  have hnd := h.nodup_leaves
  obtain ⟨hcoh, -, -⟩ := h.coherent
  cases hadv with
  | applied hn hl hs hmem hp hd hr hx =>
    have hg : Tree.Graft (.node l []) e.tree a.root (a.root.replace l.id e.tree) :=
      Tree.graft_replace hcoh.nodup hmem
    obtain ⟨before', after', ha, ha'⟩ := hg.leaves_eq
    -- no leaf stands twice in the list, so the two places are the same
    have hplace : before' ++ l :: after' = before ++ l :: after := by
      rw [← hleaves, ha]
      simp [Tree.leaves]
    rw [hleaves, List.nodup_middle, List.nodup_cons, List.mem_append, not_or] at hnd
    obtain ⟨rfl, -, rfl⟩ := (List.append_cons_inj_of_notMem hnd.1.1 hnd.1.2).1 hplace.symm
    show (a.root.replace l.id e.tree).leaves = _
    rw [ha', Tree.leaves_of_child hc]
    simp

/-! ## All further steps -/

/-- What a run does from a captured search `a` on, where the step before was `o`: it instantiates
the same universal formula with the same constant, each time on the child made last, and leaves the
witnesses, the other leaves and the closed nodes as they are. -/
structure Run.Repeats (x : String) (τ : Ty) (b : Formula) (c : String) (σ : Ty) (o : Outcome)
    (a : Attempt) (before after : List Label) (r : Run) : Prop where
  steps : ∀ o' ∈ r.steps, o'.Eliminates x τ b c σ
  chain : (o :: r.steps).IsChain Outcome.LeadsInto
  witnesses : r.attempt.supply.witnesses = a.supply.witnesses
  leaves : ∃ k, r.attempt.root.leaves = before ++ k :: after ∧ k.closed = false
  closed : ∀ v : Tree, v.label.closed = true → (v ∈ r.attempt.root.nodes ↔ v ∈ a.root.nodes)

/-- Where only an open leaf is replaced by an open leaf, the closed nodes are the same. -/
theorem Reachable.closed_iff {k' : Label} (h : Reachable goal n p a) (h' : Reachable goal n p a')
    (hl : a.root.leaves = before ++ k :: after) (hl' : a'.root.leaves = before ++ k' :: after)
    (hk : k.closed = false) (hk' : k'.closed = false) {v : Tree} (hv : v.label.closed = true) :
    v ∈ a'.root.nodes ↔ v ∈ a.root.nodes := by
  have hne : ∀ j : Label, j.closed = false → v.label ≠ j := by
    rintro j hj rfl
    exact absurd (hv.symm.trans hj) Bool.noConfusion
  rw [h.mem_nodes_iff_of_closed hv, h'.mem_nodes_iff_of_closed hv, hl, hl']
  simp [hne k hk, hne k' hk']

/-- **A captured run repeats one step.** -/
theorem runFor_repeats (j : Nat) (h : Reachable goal n p a) (hh : a.halted = false)
    (hcap : a.Captured x τ b c σ) (ho : o.HandsOn k a)
    (hleaves : a.root.leaves = before ++ k :: after) :
    Run.Repeats x τ b c σ o a before after (runFor j a) := by
  -- the closed nodes are read off the leaves
  suffices hrest : (o :: (runFor j a).steps).IsChain Outcome.LeadsInto ∧
      (runFor j a).attempt.supply.witnesses = a.supply.witnesses ∧
      ∃ k, (runFor j a).attempt.root.leaves = before ++ k :: after ∧ k.closed = false by
    obtain ⟨hchain, hwit, k', hleaves', hk'⟩ := hrest
    refine ⟨(runFor_captured j h hh hcap).1, hchain, hwit, ⟨k', hleaves', hk'⟩, fun v hv => ?_⟩
    exact h.closed_iff (h.of_leadsTo (h.leadsTo_runFor j)) hleaves hleaves' ho.opened hk' hv
  induction j generalizing a o k with
  | zero => exact ⟨by simp [runFor, Run.steps], rfl, k, hleaves, ho.opened⟩
  | succ j ih =>
    obtain ⟨a', o', hb, hadv⟩ := h.exists_advance
    obtain ⟨m₀, hfound⟩ := ho.found
    have hnext := hcap.advances h hadv
    rw [runFor_succ j hh hb, steps_cons]
    cases hadv with
    | exhausted hn => rw [hfound] at hn; cases hn
    | limit hn hl hs =>
      rw [runFor_of_halted j rfl]
      exact ⟨by simp [Outcome.record?, Run.steps], rfl, k, hleaves, ho.opened⟩
    | @applied l pre post f w m s e _ detail after' hn hl hs hmem hp hd hr hx =>
      obtain ⟨hstop, hno⟩ | ⟨hh', hwit, hcap', -, k', ho'⟩ := hnext
      · cases hno
      · -- the leaf that was handed on is the one that is expanded
        cases hfound.symm.trans hn
        have hleaves' := h.leaves_of_child (h.advances hb) ho'.child hleaves
        obtain ⟨hchain, hwit', hlast⟩ := ih (h.step hb) (hh'.trans hh) hcap' ho' hleaves'
        refine ⟨?_, hwit'.trans hwit, hlast⟩
        rw [if_pos (by rfl), List.isChain_cons_cons]
        exact ⟨⟨_, _, _, rfl, ho.child⟩, hchain⟩

/-! ## All budgets -/

/-- A captured search stays captured, also where the budget is used up. -/
theorem Captured.of_advances (h : Reachable goal n p a) (hcap : a.Captured x τ b c σ)
    (hadv : a.Advances a' o) : a'.Captured x τ b c σ := by
  have hnext := hcap.advances h hadv
  cases hadv with
  | exhausted hn =>
    obtain ⟨l, post, m, hfound, -⟩ := hcap
    rw [hfound] at hn
    cases hn
  | limit hn hl hs => exact hcap
  | applied hn hl hs hmem hp hd hr hx =>
    obtain ⟨-, hno⟩ | ⟨-, -, hcap', -⟩ := hnext
    · cases hno
    · exact hcap'

/-- A run that comes to a captured search uses up its budget. -/
theorem Captured.stepLimitReached_run (h : Reachable goal n p a) (hcap : a.Captured x τ b c σ) :
    let r := (Attempt.initial goal (.steps n) p).run.attempt
    r.Captured x τ b c σ ∧ r.stepLimitReached = true := by
  intro r
  have hend : r.Captured x τ b c σ :=
    h.invariant_of_leadsTo h.leadsTo_run hcap fun _ _ _ hr hcap hadv => hcap.of_advances hr hadv
  obtain ⟨hr, -, hhalt⟩ := run_spec goal n p
  refine ⟨hend, ?_⟩
  cases hr.stands with
  | going hgo _ => rw [hhalt] at hgo; cases hgo
  | exhausted _ hnone =>
    obtain ⟨l, post, m, hfound, -⟩ := hend
    rw [hfound] at hnone
    cases hnone
  | stopped hstop _ _ => exact hstop.limit

/-- **If a run comes to a captured search, runs with all budgets use them up.** -/
theorem Captured.stepLimitReached_of_budget {n : Nat} (h : Reachable goal n p a)
    (hcap : a.Captured x τ b c σ) (n' : Nat) :
    (Attempt.initial goal (.steps n') p).run.attempt.stepLimitReached = true := by
  obtain ⟨hend, hlim⟩ := hcap.stepLimitReached_run h
  rcases Nat.le_total n n' with hle | hle
  · -- the larger budget comes to where the smaller one ends
    have hag := agrees_of_le goal hle p
    set r := (Attempt.initial goal (.steps n) p).run.attempt
    set r' := (runFor r.step.toNat (Attempt.initial goal (.steps n') p)).attempt
    have hr' : Reachable goal n' p r' :=
      Reachable.initial.of_leadsTo (Reachable.initial.leadsTo_runFor _)
    have hpolicy : r'.policy = r.policy :=
      hr'.coherent.2.2.trans (run_spec goal n p).1.coherent.2.2.symm
    have hcap' : r'.Captured x τ b c σ := by
      unfold Captured
      rw [hag.root, hag.supply, hpolicy]
      exact hend
    exact (hcap'.stepLimitReached_run hr').2
  · -- a smaller budget that is enough would be enough for the larger one
    by_contra hne
    have hverdict := verdict_of_le goal hle p (by simpa using hne)
    have hlim' := congrArg Verdict.stepLimitReached hverdict
    exact hne (hlim'.symm.trans hlim)

/-- **The first universal formula that does not close its leaf captures the run.** If a step
instantiates a universal formula and leaves an open child, then every later step of the run
instantiates the same formula with the same constant, on the child made by the step before; no other
leaf changes, no witness is added and no node is closed. Whatever the budget, a run for the goal
uses it up, and the goal does not count as valid. -/
theorem Reachable.universal_captures {n : Nat} (hp : p ∈ WitnessPolicy.known)
    (h : Reachable goal n p a) (hb : a.advance = .ok (a', .applied t m e))
    (hu : m.rule = .universal) (hopen : ∃ v ∈ e.tree.children, v.label.closed = false) :
    ∃ x τ b c σ, (Outcome.applied t m e).Eliminates x τ b c σ ∧
      (∃ before k after, e.tree.children = [.node k []] ∧
        a'.root.leaves = before ++ k :: after ∧
        ∀ j, Run.Repeats x τ b c σ (.applied t m e) a' before after (runFor j a')) ∧
      ∀ n' : Nat, ∃ v, prove goal (.steps n') p = .ok v ∧ v.stepLimitReached = true ∧
        v.isValid = false := by
  have hadv := h.advances hb
  have hchildren : e.tree.children ≠ [] := by
    obtain ⟨v, hv, -⟩ := hopen
    exact List.ne_nil_of_mem hv
  obtain ⟨x, τ, b, c, σ, hcap, helim, k, ho⟩ := h.captured_of_children hadv hu hchildren
  refine ⟨x, τ, b, c, σ, helim, ?_, fun n' => ?_⟩
  · obtain ⟨hgoing, -⟩ := h.stands.going_of_applied h.coherent.2.1 hadv
    have hmem : k ∈ a'.root.leaves := by
      obtain ⟨m₀, hfound⟩ := ho.found
      exact Tree.mem_leaves_of_mem_nodes (Tree.mem_nodes_of_next? hfound)
    obtain ⟨before, after, hleaves⟩ := List.append_of_mem hmem
    exact ⟨before, k, after, ho.child, hleaves,
      fun j => runFor_repeats j (h.step hb) hgoing hcap ho hleaves⟩
  · have hlim := hcap.stepLimitReached_of_budget (h.step hb) n'
    refine ⟨_, prove_eq_run goal n' hp, hlim, ?_⟩
    by_contra hvalid
    have hno := stepLimitReached_of_isValid goal n' p (by simpa using hvalid)
    rw [hlim] at hno
    cases hno

/-- The second step on `(∀x:i.P(x)) → (Q → Q)` instantiates the universal formula and leaves the
negation of `Q → Q` beside it. That would close the branch, but its turn never comes: no budget is
large enough for this valid goal. -/
theorem Reachable.universal_captures_tautology :
    let P : Formula := .const "P" (.fn .individual .truth)
    let Q : Formula := .const "Q" .truth
    let all : Formula := .all "x" .individual (.app P (.var "x" .individual))
    let goal : Formula := .imp all (.imp Q Q)
    let a := (runFor 1 (Attempt.initial goal (.steps 2) .byName)).attempt
    WitnessPolicy.byName ∈ WitnessPolicy.known ∧ Reachable goal (2 : Nat) .byName a ∧
      ∃ a' t m e, a.advance = .ok (a', .applied t m e) ∧ m.rule = .universal ∧
        (∃ v ∈ e.tree.children, v.label.closed = false) ∧
        ∃ x τ b c σ, (Outcome.applied t m e).Eliminates x τ b c σ ∧
          (∃ before k after, e.tree.children = [.node k []] ∧
            a'.root.leaves = before ++ k :: after ∧
            ∀ j, Run.Repeats x τ b c σ (.applied t m e) a' before after (runFor j a')) ∧
          ∀ n' : Nat, ∃ v, prove goal (.steps n') .byName = .ok v ∧ v.stepLimitReached = true ∧
            v.isValid = false := by
  intro P Q all goal a
  have hp : WitnessPolicy.byName ∈ WitnessPolicy.known := by decide
  have hstart : Reachable goal (2 : Nat) .byName (Attempt.initial goal (.steps 2) .byName) :=
    .initial
  have ha : Reachable goal (2 : Nat) .byName a := hstart.of_leadsTo (hstart.leadsTo_runFor 1)
  have hstep : (fun r : Run => r.outcomes.map fun o =>
      (o.record?.map Record.rule, o.made.map fun v => v.label.closed)) (runFor 1 a) =
        [(some Rule.universal.name, [false])] := by
    unfold a
    cbv
  have hhalted : a.halted = false := by
    rw [← Bool.not_eq_true]
    intro h
    rw [runFor_of_halted 1 h] at hstep
    cases hstep
  obtain ⟨a', o, hb, hadv⟩ := ha.exists_advance
  rw [runFor_succ 0 hhalted hb] at hstep
  obtain ⟨hrule, hclosed⟩ := Prod.mk.inj (List.cons.inj hstep).1
  cases hadv with
  | exhausted hn => cases hclosed
  | limit hn hl hs => cases hclosed
  | @applied l _ _ _ _ m _ e _ _ _ hn hl hs hmem hpick hd hr hx =>
    have hname : m.rule.name = Rule.universal.name :=
      (congrArg Record.rule hr).symm.trans (Option.some.inj hrule)
    have hu : m.rule = .universal := by
      have hof := congrArg Rule.ofName? hname
      rw [Rule.ofName?_name, Rule.ofName?_name] at hof
      exact Option.some.inj hof
    have hopen : ∃ v ∈ e.tree.children, v.label.closed = false :=
      List.mem_map.1 (hclosed ▸ List.mem_singleton_self false)
    exact ⟨hp, ha, _, _, m, e, hb, hu, hopen, ha.universal_captures hp hb hu hopen⟩

end Attempt

end

end Refutation
