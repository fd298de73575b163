import Refutation.Closure
import Refutation.Proofs.Formula.Truth
import Refutation.Proofs.Pattern.Lowering

/-!
# Closure

Formulas are contradictory exactly if one of them, not itself a negation, unifies with what
another one negates (`contradiction?_isSome_iff_unifies`); so fewer formulas are no more
contradictory. Closed formulas unify exactly if they have one pattern
(`contradiction?_isSome_iff`). Such a pair is never
true together, for any notion of truth that does not look at types
(`Boolean.not_all_of_contradiction?`).

A closed formula is opposed if it is not a negation and something with the same surface is
negated. **Closed formulas are contradictory exactly if one of them is opposed, and the first
that is gives the reason** (`closes_iff_opposed`).
-/

namespace Refutation

variable {fs : List Formula}

theorem mem_negated {g : Formula} : g ∈ negated fs ↔ .not g ∈ fs := by
  unfold negated
  rw [List.mem_filterMap]
  constructor
  · rintro ⟨f, hf, hg⟩
    cases f with
    | not b => simp only [Option.some.injEq] at hg; rw [← hg]; exact hf
    | _ => simp at hg
  · intro h
    exact ⟨_, h, rfl⟩

theorem mem_affirmed {f : Formula} : f ∈ affirmed fs ↔ f ∈ fs ∧ f.isNot = false := by
  simp [affirmed]

/-- Formulas are contradictory exactly if some affirmed one unifies with a negated one. -/
theorem contradiction?_isSome_iff_unifies :
    (contradiction? fs).isSome ↔
      ∃ p q, p ∈ fs ∧ p.isNot = false ∧ .not q ∈ fs ∧ p.unifiesWith q = true := by
  unfold contradiction? clash?
  rw [Option.isSome_map, List.find?_isSome]
  simp only [List.any_eq_true, mem_affirmed, mem_negated]
  constructor
  · rintro ⟨p, ⟨hp, hn⟩, q, hq, hu⟩
    exact ⟨p, q, hp, hn, hq, hu⟩
  · rintro ⟨p, q, hp, hn, hq, hu⟩
    exact ⟨p, ⟨hp, hn⟩, q, hq, hu⟩

/-- Fewer formulas are no more contradictory. -/
theorem contradiction?_eq_none_of_subset {gs : List Formula} (hsub : gs ⊆ fs)
    (h : contradiction? fs = none) : contradiction? gs = none := by
  by_contra hne
  obtain ⟨p, q, hp, hn, hq, hu⟩ :=
    contradiction?_isSome_iff_unifies.1 (Option.isSome_iff_ne_none.2 hne)
  have hsome := contradiction?_isSome_iff_unifies.2 ⟨p, q, hsub hp, hn, hsub hq, hu⟩
  rw [h] at hsome; cases hsome

/-- **Closed formulas are contradictory exactly if some affirmed one has the pattern of a
negated one.** -/
theorem contradiction?_isSome_iff (hc : ∀ f ∈ fs, f.freeVars = []) :
    (contradiction? fs).isSome ↔
      ∃ p q, p ∈ fs ∧ p.isNot = false ∧ .not q ∈ fs ∧ p.lower = q.lower := by
  have hunify : ∀ p q, p ∈ fs → .not q ∈ fs → (p.unifiesWith q = true ↔ p.lower = q.lower) := by
    intro p q hp hq
    have hqc : q.freeVars = [] := hc (.not q) hq
    exact Formula.unifiesWith_iff (hc p hp) hqc
  rw [contradiction?_isSome_iff_unifies]
  constructor
  · rintro ⟨p, q, hp, hn, hq, hu⟩
    exact ⟨p, q, hp, hn, hq, (hunify p q hp hq).1 hu⟩
  · rintro ⟨p, q, hp, hn, hq, hl⟩
    exact ⟨p, q, hp, hn, hq, (hunify p q hp hq).2 hl⟩

/-- One formula alone is not contradictory. -/
theorem contradiction?_singleton (f : Formula) : contradiction? [f] = none := by
  unfold contradiction? clash?
  rw [Option.map_eq_none_iff, List.find?_eq_none]
  intro p hp
  obtain ⟨hp, hn⟩ := mem_affirmed.1 hp
  rw [List.mem_singleton] at hp; subst hp
  have hneg : negated [p] = [] := by
    refine List.eq_nil_iff_forall_not_mem.2 fun q hq => ?_
    rw [mem_negated, List.mem_singleton] at hq
    rw [← hq] at hn; simp [Formula.isNot] at hn
  simp [hneg]

/-- Contradictory closed formulas are not all true, if truth does not look at types. -/
theorem Boolean.not_all_of_contradiction? {S : Formula → Prop} (hS : Boolean S)
    (hc : ∀ f ∈ fs, f.freeVars = [])
    (hu : ∀ p q, p ∈ fs → .not q ∈ fs → p.untyped = q.untyped → (S p ↔ S q))
    (h : (contradiction? fs).isSome) : ¬ ∀ f ∈ fs, S f := by
  obtain ⟨p, q, hp, -, hq, hl⟩ := (contradiction?_isSome_iff hc).1 h
  intro hall
  have hpq := hu p q hp hq (Formula.untyped_eq_of_lower_eq hl)
  exact (hS.not q).1 (hall _ hq) (hpq.1 (hall p hp))

/-- In formulas that are not contradictory, nothing affirmed is equal up to types to
something negated, quantified formulas apart. -/
theorem untyped_ne_of_contradiction? (hc : ∀ f ∈ fs, f.freeVars = [])
    (h : contradiction? fs = none) {p q : Formula} (hp : p ∈ fs) (hq : .not q ∈ fs)
    (hn : q.isNot = false) (hbq : q.binders = []) : p.untyped ≠ q.untyped := by
  intro hu
  have hbp : p.binders = [] := by
    rw [← Formula.binders_untyped, hu, Formula.binders_untyped, hbq]
  have hl : p.lower = q.lower := by
    rw [← Formula.lower_untyped hbp, hu, Formula.lower_untyped hbq]
  have hpn : p.isNot = false := by
    rw [← Formula.isNot_untyped, hu, Formula.isNot_untyped]; exact hn
  have := (contradiction?_isSome_iff hc).2 ⟨p, q, hp, hpn, hq, hl⟩
  rw [h] at this; simp at this

/-! ## Opposed formulas -/

/-- The formula is not a negation, and what is negated among `fs` holds one that differs from it
at most in the types of symbols outside quantified subformulas. -/
structure Opposed (fs : List Formula) (f : Formula) : Prop where
  affirmed : f.isNot = false
  negated : ∃ g, .not g ∈ fs ∧ f.surface = g.surface

/-- Among closed formulas, the opposed ones are those that the closure test looks for. -/
theorem opposed_iff (hc : ∀ f ∈ fs, f.freeVars = []) {f : Formula} (hf : f ∈ fs) :
    Opposed fs f ↔ (!f.isNot && (negated fs).any f.unifiesWith) = true := by
  have hunify : ∀ g, .not g ∈ fs → (f.unifiesWith g = true ↔ f.surface = g.surface) := by
    intro g hg
    have hgc : g.freeVars = [] := hc (.not g) hg
    exact (Formula.unifiesWith_iff (hc f hf) hgc).trans Formula.lower_eq_iff
  rw [Bool.and_eq_true, Bool.not_eq_true', List.any_eq_true]
  constructor
  · rintro ⟨hn, g, hg, hs⟩
    exact ⟨hn, g, mem_negated.2 hg, (hunify g hg).2 hs⟩
  · rintro ⟨hn, g, hg, hu⟩
    have hg := mem_negated.1 hg
    exact ⟨hn, g, hg, (hunify g hg).1 hu⟩

/-- **The formula that clashes among closed ones is the first that is opposed.** -/
theorem clash?_eq_some_iff (hc : ∀ f ∈ fs, f.freeVars = []) {f : Formula} :
    clash? fs = some f ↔ ∃ before after, fs = before ++ f :: after ∧ Opposed fs f ∧
      ∀ k ∈ before, ¬ Opposed fs k := by
  have hfind : clash? fs = fs.find? fun f => !f.isNot && (negated fs).any f.unifiesWith := by
    unfold clash? affirmed
    rw [List.find?_filter]
    congr 1
    funext f
    rw [Bool.eq_iff_iff]
    simp
  rw [hfind, List.find?_eq_some_iff_append]
  constructor
  · rintro ⟨hf, before, after, hfs, hbefore⟩
    refine ⟨before, after, hfs, (opposed_iff hc (by rw [hfs]; simp)).2 hf, fun k hk hop => ?_⟩
    have hk' := (opposed_iff hc (by rw [hfs]; simp [hk])).1 hop
    simpa [hk'] using hbefore k hk
  · rintro ⟨before, after, hfs, hop, hbefore⟩
    refine ⟨(opposed_iff hc (by rw [hfs]; simp)).1 hop, before, after, hfs, fun k hk => ?_⟩
    rw [Bool.not_eq_true', ← Bool.not_eq_true]
    exact fun h => hbefore k hk ((opposed_iff hc (by rw [hfs]; simp [hk])).2 h)

/-- **Closure on closed formulas is complementarity.** On formulas the closure test is never
refused. Closed formulas are contradictory exactly if one of them is opposed; the reason names
the first that is, with its negation. -/
theorem closes_iff_opposed (hc : ∀ f ∈ fs, f.freeVars = []) :
    Entry.contradiction (fs.map .formula) = .ok (contradiction? fs) ∧
      ((contradiction? fs).isSome ↔ ∃ f ∈ fs, Opposed fs f) ∧
      ∀ reason, contradiction? fs = some reason ↔
        ∃ before f after, fs = before ++ f :: after ∧ Opposed fs f ∧
          (∀ k ∈ before, ¬ Opposed fs k) ∧ reason = f.text ++ " ∧ ¬" ++ f.text := by
  refine ⟨Entry.contradiction_formulas fs, ?_, fun reason => ?_⟩
  · rw [contradiction?_isSome_iff hc]
    constructor
    · rintro ⟨f, g, hf, hn, hg, hl⟩
      exact ⟨f, hf, hn, g, hg, Formula.lower_eq_iff.1 hl⟩
    · rintro ⟨f, hf, hn, g, hg, hs⟩
      exact ⟨f, g, hf, hn, hg, Formula.lower_eq_iff.2 hs⟩
  · unfold contradiction?
    rw [Option.map_eq_some_iff]
    constructor
    · rintro ⟨f, hf, rfl⟩
      obtain ⟨before, after, hfs, hop, hbefore⟩ := (clash?_eq_some_iff hc).1 hf
      exact ⟨before, f, after, hfs, hop, hbefore, rfl⟩
    · rintro ⟨before, f, after, hfs, hop, hbefore, rfl⟩
      exact ⟨f, (clash?_eq_some_iff hc).2 ⟨before, after, hfs, hop, hbefore⟩, rfl⟩

/-- The types of `B` are not looked at, so `B` and `¬B` clash; but the universal formula before `B`
is opposed too, and names the reason. With another type behind its quantifier it is not. -/
theorem closes_iff_opposed_quantified :
    let P : Formula := .const "P" (.fn .individual .truth)
    let x : Formula := .var "x" .individual
    let every : Formula := .all "x" .individual (.app P x)
    let fs : List Formula :=
      [.not (.const "B" .truth), every, .not every, .const "B" .individual]
    let gs : List Formula := [every, .not (.all "x" .truth (.app P x))]
    (∀ f ∈ fs, f.freeVars = []) ∧ (∀ f ∈ gs, f.freeVars = []) ∧
      contradiction? fs = some "∀x:i.(P(x)) ∧ ¬∀x:i.(P(x))" ∧ Opposed fs (.const "B" .individual) ∧
      contradiction? gs = none := by
  intro P x every fs gs
  have hfs : ∀ f ∈ fs, f.freeVars = [] := by decide
  have hgs : ∀ f ∈ gs, f.freeVars = [] := by decide
  have hB : Opposed fs (.const "B" .individual) := ⟨rfl, .const "B" .truth, by simp [fs], rfl⟩
  refine ⟨hfs, hgs, ?_, hB, ?_⟩
  · refine ((closes_iff_opposed hfs).2.2 _).2 ⟨[.not (.const "B" .truth)], every, _, rfl, ?_, ?_, ?_⟩
    · exact ⟨rfl, every, by simp [fs], rfl⟩
    · rintro k hk ⟨hn, -⟩
      rw [List.mem_singleton.1 hk] at hn
      cases hn
    · decide
  · rw [← Option.not_isSome_iff_eq_none, (closes_iff_opposed hgs).2.1]
    rintro ⟨f, hf, hn, g, hg, hs⟩
    simp only [gs, List.mem_cons, List.not_mem_nil, or_false] at hf hg
    rcases hf with rfl | rfl
    · rcases hg with hg | hg
      · cases congrArg Formula.isNot hg
      · cases hg
        exact absurd hs (by decide)
    · cases hn

end Refutation
