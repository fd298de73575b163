import Refutation.Proofs.Attempt.Instances
import Refutation.Proofs.Attempt.Simulation
import Refutation.Proofs.Attempt.Unlogged

/-!
# Other annotations

Types are carried along, and a run looks at them in two places only: unification compares quantified
formulas as a whole, and the keys of the occurrence policy tell the types of binders. Every
quantified formula of a run is an instance of one of the goal, by witnesses for the variables that
are bound around it (`Traced.of_mem_seals`). So what a run finds equal is equal in the goal already.

* `Carries.faithful`: if the annotations of two goals make the same quantified formulas equal, runs
  cannot tell them apart.
* `Attempt.annotations_immaterial`: **then the goals are refuted by the same steps.**
* `Attempt.annotations_matter`: without this they need not be.
-/

namespace Refutation

open Formula (Fills)

/-- What the first annotation makes equal in the goal the second makes equal as well, and both tell
the type. -/
structure Carries (p : WitnessPolicy) (goal : Formula) (ε ε' : Ty → Ty) : Prop where
  pairing : ∀ σ τ, ε σ = ε τ → ε' σ = ε' τ → σ = τ
  unknown : ε .unknown = .unknown
  unknown' : ε' .unknown = .unknown
  constants : ∀ k : Nat, Supply.witnessName (k + 1) ∉ goal.constants
  same : ∀ u ∈ goal.quantified, ∀ v ∈ goal.quantified,
    u.recast id ε = v.recast id ε → u.recast id ε' = v.recast id ε'
  named : p = .byOccurrence → goal.Named
  varNames : p = .byOccurrence → ∀ k : Nat, Supply.witnessName (k + 1) ∉ goal.varNames
  texts : p = .byOccurrence → ∀ u ∈ goal.quantified, ∀ v ∈ goal.quantified,
    (u.recast id ε).text = (v.recast id ε).text → (u.recast id ε').text = (v.recast id ε').text

variable {p : WitnessPolicy} {goal f g q q' : Formula} {ws ws' : Table} {s : Supply}
  {x y c : String} {σ τ : Ty} {ε ε' : Ty → Ty}

/-- Every quantified formula that unification comes across is an instance of one of the goal. -/
theorem Traced.of_mem_seals (h : Traced p goal ws f) (hq : q ∈ f.seals) :
    ∃ r ∈ goal.subformulas, ∃ q₀ ∈ r.formula.seals, ∃ ρ,
      Fills (MintedFor p ws) r.scope ρ ∧ q = q₀.instantiate ρ := by
  obtain ⟨-, r, hr, k, ρ, hk, hρ, rfl⟩ := h
  rw [Formula.seals_instantiate hρ.constants] at hq
  obtain ⟨q₀, hq₀, rfl⟩ := List.mem_map.1 hq
  refine ⟨r, hr, q₀, ?_, ρ, hρ, rfl⟩
  rcases hk with rfl | rfl
  · exact hq₀
  · exact hq₀

/-! ## What a run compares -/

/-- **Where the goal makes no difference between the annotations, a run makes none between
quantified formulas.** -/
theorem Carries.eq_of_recast_eq (h : Carries p goal ε ε') (hs : s.Numbered)
    (hf : Traced p goal s.witnesses f) (hg : Traced p goal s.witnesses g) (hq : q ∈ f.seals)
    (hq' : q' ∈ g.seals) (heq : q.recast id ε = q'.recast id ε) : q = q' := by
  obtain ⟨o, ho, hnone⟩ := exists_origin p hs
  have hconst : ∀ r ∈ goal.subformulas, ∀ k ∈ r.formula.seals, ∀ c ∈ k.constants, o c = none := by
    intro r hr k hk
    refine (Formula.inward_constants fun c => o c = none).of_sealed (fun c hc => ?_) hr hk
    exact hnone c fun i hi => h.constants i (hi ▸ hc)
  obtain ⟨r, hr, q₀, hq₀, ρ, hρ, rfl⟩ := hf.of_mem_seals hq
  obtain ⟨r', hr', q₀', hq₀', ρ', hρ', rfl⟩ := hg.of_mem_seals hq'
  replace hρ := hρ.mono ho
  replace hρ' := hρ'.mono ho
  have hc := hconst r hr q₀ hq₀
  have hc' := hconst r' hr' q₀' hq₀'
  -- with the witnesses taken back, these are formulas of the goal
  have hfaded : (Subformula.faded ⟨q₀, r.scope⟩).recast id ε =
      (Subformula.faded ⟨q₀', r'.scope⟩).recast id ε := by
    rw [← Formula.withdraw_instantiate hρ hc, ← Formula.withdraw_instantiate hρ' hc',
      ← Formula.withdraw_recast h.unknown, heq, Formula.withdraw_recast h.unknown]
  have hfaded' :=
    h.same _ (Formula.mem_quantified hr hq₀) _ (Formula.mem_quantified hr' hq₀') hfaded
  rw [← Formula.withdraw_instantiate hρ hc, ← Formula.withdraw_instantiate hρ' hc'] at hfaded'
  exact Formula.eq_of_withdraw h.pairing (Formula.stamp_instantiate hρ hc)
    (Formula.stamp_instantiate hρ' hc') heq hfaded'

/-- The spelling of an instance under an annotation, with the old names put back. -/
theorem spelled_recast_instantiate {o : String → Option (String × Ty)} {xs : List String}
    {ρ : String → Option Formula} (hρ : Fills (fun x c τ => o c = some (x, τ)) xs ρ)
    (hc : ∀ n ∈ q.constants, o n = none) (hv : ∀ n ∈ q.varNames, o n = none) (ε : Ty → Ty) :
    ((q.instantiate ρ).recast id ε).spelled.recast (fun n => ((o n).map Prod.fst).getD n) id =
      (q.recast id ε).spelled := by
  rw [Formula.recast_instantiate]
  refine Formula.spelled_instantiate (fun x w hx => ?_) (fun n hn => ?_) fun n hn => ?_
  · obtain ⟨v, hv, rfl⟩ := Option.map_eq_some_iff.1 hx
    obtain ⟨c, τ, rfl, ho⟩ := hρ.stands hv
    exact ⟨c, ε τ, rfl, by simp only [ho, Option.map_some, Option.getD_some]⟩
  · rw [Formula.constants_recast, List.map_id] at hn
    simp only [hc n hn, Option.map_none, Option.getD_none]
  · rw [Formula.varNames_recast] at hn
    simp only [hv n hn, Option.map_none, Option.getD_none]

/-- **Under the occurrence policy it makes none between their texts either.** -/
theorem Carries.spelled_eq (h : Carries .byOccurrence goal ε ε') (hs : s.Numbered)
    (hf : Traced .byOccurrence goal s.witnesses f) (hg : Traced .byOccurrence goal s.witnesses g)
    (hq : q ∈ f.seals) (hq' : q' ∈ g.seals)
    (heq : (q.recast id ε).spelled = (q'.recast id ε).spelled) : q.spelled = q'.spelled := by
  obtain ⟨o, ho, hnone⟩ := exists_origin .byOccurrence hs
  have hnames : ∀ r ∈ goal.subformulas, ∀ k ∈ r.formula.seals,
      (∀ n ∈ k.constants, o n = none) ∧ (∀ n ∈ k.varNames, o n = none) ∧ k.Named := by
    intro r hr k hk
    refine ⟨(Formula.inward_constants fun n => o n = none).of_sealed (fun n hn => ?_) hr hk,
      (Formula.inward_varNames fun n => o n = none).of_sealed (fun n hn => ?_) hr hk,
      Formula.inward_named.of_sealed (h.named rfl) hr hk⟩
    · exact hnone n fun i hi => h.constants i (hi ▸ hn)
    · exact hnone n fun i hi => h.varNames rfl i (hi ▸ hn)
  obtain ⟨r, hr, q₀, hq₀, ρ, hρ, rfl⟩ := hf.of_mem_seals hq
  obtain ⟨r', hr', q₀', hq₀', ρ', hρ', rfl⟩ := hg.of_mem_seals hq'
  obtain ⟨hc, hv, hn⟩ := hnames r hr q₀ hq₀
  obtain ⟨hc', hv', hn'⟩ := hnames r' hr' q₀' hq₀'
  have hback := spelled_recast_instantiate (hρ.mono ho) hc hv
  have hback' := spelled_recast_instantiate (hρ'.mono ho) hc' hv'
  -- with the old names put back, these are texts of the goal
  have hspell : (q₀.recast id ε).spelled = (q₀'.recast id ε).spelled := by
    rw [← hback ε, heq, hback' ε]
  have htext := h.texts rfl _ (Formula.mem_quantified hr hq₀) _ (Formula.mem_quantified hr' hq₀')
  simp only [← Formula.faded_recast h.unknown, ← Formula.faded_recast h.unknown',
    Formula.text_faded] at htext
  have hspell' := (Formula.named_recast_iff.2 hn).spelled_eq_of_text_eq
    (Formula.named_recast_iff.2 hn') (htext (Formula.text_eq_of_spelled_eq hspell))
  refine Formula.spelled_eq_of_recast (ω := fun n => ((o n).map Prod.fst).getD n) h.pairing heq ?_
  rw [hback ε', hback' ε', hspell']

/-- What binds a name is a quantified formula or the negation of one. -/
theorem Formula.exists_quant_of_binding? (hb : f.binding? = some (x, τ)) :
    ∃ Q b, f = .quant Q x τ b ∨ f = .not (.quant Q x τ b) := by
  unfold binding? shape at hb
  split at hb <;> cases hb
  · exact ⟨_, _, Or.inr rfl⟩
  · exact ⟨_, _, Or.inr rfl⟩
  · exact ⟨_, _, Or.inl rfl⟩
  · exact ⟨_, _, Or.inl rfl⟩

/-- The keys of a run do not tell the annotations apart. -/
theorem Carries.key_iff (h : Carries p goal ε ε') (hs : s.Numbered) (i j : List String)
    (hf : Traced p goal s.witnesses f) (hg : Traced p goal s.witnesses g)
    (hx : f.binding? = some (x, σ)) (hy : g.binding? = some (y, τ)) :
    p.key (some x) (f.recast id ε).text i = p.key (some y) (g.recast id ε).text j ↔
      p.key (some x) f.text i = p.key (some y) g.text j := by
  by_cases hp : p = .byOccurrence
  · subst hp
    have hnf := hf.1 rfl
    have hng := hg.1 rfl
    rw [(Formula.named_recast_iff.2 hnf).key_eq_iff (Formula.named_recast_iff.2 hng),
      hnf.key_eq_iff hng]
    refine and_congr_left fun _ => ⟨fun heq => ?_, Formula.spelled_recast_congr⟩
    obtain ⟨Q, b, rfl | rfl⟩ := Formula.exists_quant_of_binding? hx <;>
      obtain ⟨Q', b', rfl | rfl⟩ := Formula.exists_quant_of_binding? hy
    · exact h.spelled_eq hs hf hg List.mem_cons_self List.mem_cons_self heq
    · cases heq
    · cases heq
    · refine congrArg Formula.not ?_
      exact h.spelled_eq hs hf hg List.mem_cons_self List.mem_cons_self (Formula.not.inj heq)
  · simp only [WitnessPolicy.key, if_neg hp]

/-- **Recasting by an annotation that carries another keeps apart what a run compares.** -/
theorem Carries.faithful (h : Carries p goal ε ε') : Faithful p (Traced p goal) id ε where
  kept := kept_traced p goal
  witness _ := rfl
  apart s hs fs hfs := by
    refine ⟨Set.injOn_id _, ?_⟩
    rintro q ⟨f, hf, hq⟩ q' ⟨g, hg, hq'⟩ heq
    exact h.eq_of_recast_eq hs (hfs f hf) (hfs g hg) hq hq' heq
  keys s hs _ _ _ _ _ _ i j hf hg hx hy := h.key_iff hs i j hf hg hx hy

namespace Attempt

/-- **Types do not count where they make no quantified formulas equal or different.** Let two goals
be equal up to types, and let two quantified formulas inside one of them be equal exactly if those
at the same places of the other are, where the types of variables that are bound around them are
left out. Let no constant be named like a witness. Under the occurrence policy let also two of them
be written alike in one goal exactly if they are in the other, with names of the reader, none of
them the name of a witness. Then the goals are refuted by the same steps: with every budget, the
same rules are applied to the same nodes on the same branches with the same instantiations, and the
verdicts are the same. -/
theorem annotations_immaterial (f g : Formula) (n : Nat) {p : WitnessPolicy}
    (hp : p ∈ WitnessPolicy.known) (huntyped : f.untyped = g.untyped) (halike : f.Alike id g)
    (hnames : ∀ k : Nat, Supply.witnessName (k + 1) ∉ f.constants)
    (hocc : p = .byOccurrence → f.Named ∧
      (∀ k : Nat, Supply.witnessName (k + 1) ∉ f.varNames) ∧ f.Alike Formula.text g) :
    ∃ v w, prove f (.steps n) p = .ok v ∧ prove g (.steps n) p = .ok w ∧
      w.isValid = v.isValid ∧ w.stepLimitReached = v.stepLimitReached ∧
      w.inconclusive = v.inconclusive ∧ w.log.map Record.wordless = v.log.map Record.wordless := by
  obtain ⟨e, he⟩ := Ty.exists_pairing
  let ε₁ : Ty → Ty := fun τ => (e τ).1
  let ε₂ : Ty → Ty := fun τ => (e τ).2
  obtain ⟨k, rfl, rfl⟩ := Formula.exists_joint e huntyped
  have hunknown₁ : ε₁ .unknown = .unknown := congrArg Prod.fst he
  have hunknown₂ : ε₂ .unknown = .unknown := congrArg Prod.snd he
  have hpair : ∀ σ τ, ε₁ σ = ε₁ τ → ε₂ σ = ε₂ τ → σ = τ :=
    fun σ τ h₁ h₂ => e.injective (Prod.ext h₁ h₂)
  have hconst : ∀ j : Nat, Supply.witnessName (j + 1) ∉ k.constants := by
    rwa [Formula.constants_recast, List.map_id] at hnames
  have hnamed : p = .byOccurrence → k.Named := fun hp => Formula.named_recast_iff.1 (hocc hp).1
  have hvars : p = .byOccurrence → ∀ j : Nat, Supply.witnessName (j + 1) ∉ k.varNames := by
    intro hp
    obtain ⟨-, hv, -⟩ := hocc hp
    rwa [Formula.varNames_recast] at hv
  -- both goals compare the quantified formulas of `k`, each under its own annotation
  have h₁ : Carries p k ε₁ ε₂ :=
    { pairing := hpair, unknown := hunknown₁, unknown' := hunknown₂, constants := hconst
      same := fun u hu v hv => (halike.recast_iff hunknown₁ hunknown₂ hu hv).1
      named := hnamed, varNames := hvars
      texts := fun hp u hu v hv => ((hocc hp).2.2.recast_iff hunknown₁ hunknown₂ hu hv).1 }
  have h₂ : Carries p k ε₂ ε₁ :=
    { pairing := fun σ τ hσ hτ => hpair σ τ hτ hσ, unknown := hunknown₂, unknown' := hunknown₁
      constants := hconst
      same := fun u hu v hv => (halike.recast_iff hunknown₁ hunknown₂ hu hv).2
      named := hnamed, varNames := hvars
      texts := fun hp u hu v hv => ((hocc hp).2.2.recast_iff hunknown₁ hunknown₂ hu hv).2 }
  have m₁ := Mirrors.run (n := n) h₁.faithful (traced_negate hnamed [])
  have m₂ := Mirrors.run (n := n) h₂.faithful (traced_negate hnamed [])
  obtain ⟨hcoh, -⟩ := (run_spec k n p).1.coherent
  obtain ⟨hcoh₁, -⟩ := (run_spec (k.recast id ε₁) n p).1.coherent
  obtain ⟨hcoh₂, -⟩ := (run_spec (k.recast id ε₂) n p).1.coherent
  refine ⟨_, _, prove_eq_run _ n hp, prove_eq_run _ n hp, ?_, ?_, ?_, ?_⟩
  · exact (m₂.isValid_eq hcoh hcoh₂).trans (m₁.isValid_eq hcoh hcoh₁).symm
  · exact m₂.limit.trans m₁.limit.symm
  · exact (m₂.inconclusive_eq hcoh hcoh₂).trans (m₁.inconclusive_eq hcoh hcoh₁).symm
  · exact m₂.log.trans m₁.log.symm

/-- If all things have a property, then all things have it, with one type of things and with
another. Under the occurrence policy the hypotheses on texts and names count as well. -/
theorem annotations_immaterial_tautology :
    let P : Formula := .app (.const "P" (.fn .individual .truth)) (.var "x" .individual)
    let goal : Ty → Formula := fun τ => .imp (.all "x" τ P) (.all "x" τ P)
    WitnessPolicy.byOccurrence ∈ WitnessPolicy.known ∧
      (goal .individual).untyped = (goal .truth).untyped ∧
      (goal .individual).Alike id (goal .truth) ∧
      (goal .individual).Alike Formula.text (goal .truth) ∧
      ∃ v w, prove (goal .individual) (.steps (5 : Nat)) .byOccurrence = .ok v ∧
        prove (goal .truth) (.steps (5 : Nat)) .byOccurrence = .ok w ∧
        v.isValid = true ∧ w.isValid = true := by
  intro P goal
  have hp : WitnessPolicy.byOccurrence ∈ WitnessPolicy.known := by decide
  have halike : (goal .individual).Alike id (goal .truth) := by decide
  have htext : (goal .individual).Alike Formula.text (goal .truth) := by decide
  have hnamed : (goal .individual).Named := ⟨by decide, by decide, by decide⟩
  obtain ⟨v, w, hv, hw, hvalid, -⟩ := annotations_immaterial (goal .individual) (goal .truth) 5 hp
    rfl halike (fun k => Supply.witnessName_notMem (by decide) (k + 1))
    fun _ => ⟨hnamed, fun k => Supply.witnessName_notMem (by decide) (k + 1), htext⟩
  have htrue : v.isValid = true := by
    rw [isValid_of_prove hp hv]
    cbv
  exact ⟨hp, rfl, halike, htext, v, w, hv, hw, htrue, hvalid.trans htrue⟩

/-- Something is to be related to `a` and not to `b`, and something the other way round, where `a`
and `b` may speak of `z`. If both sides have one type and `a` and `b` are written alike once `z` has
its witness, then so are the sides, and they share a witness. -/
def lookalikeGoal (a b : Formula) (τ : Ty) : Formula :=
  let S : Formula → Formula :=
    .app (.app (.const "S" (.fn .individual (.fn .individual .truth))) (.var "x" .individual))
  .not (.ex "z" .individual (.and (.ex "x" .individual (.and (S a) (.not (S b))))
    (.ex "x" τ (.and (S b) (.not (S a))))))

/-- The two differ in the type of a constant. -/
def typeGoal : Ty → Formula :=
  lookalikeGoal (.all "y" .individual (.const "a" .individual))
    (.all "y" .individual (.const "a" .truth))

/-- The two differ in a variable that has the name of the witness. -/
def variableGoal : Ty → Formula :=
  lookalikeGoal (.all "y" .individual (.var "z" .individual))
    (.all "y" .individual (.var "c1" .individual))

/-- One of the two is a constant with a name that looks like an application. -/
def nameGoal : Ty → Formula :=
  lookalikeGoal (.app (.const "f" (.fn .individual .individual)) (.var "z" .individual))
    (.const "f(c1)" .individual)

theorem closesIn_typeGoal : closesIn .byOccurrence 6 (typeGoal .individual) = true ∧
    closesIn .byOccurrence 6 (typeGoal .truth) = false := by
  constructor <;> cbv

theorem closesIn_variableGoal : closesIn .byOccurrence 6 (variableGoal .individual) = true ∧
    closesIn .byOccurrence 6 (variableGoal .truth) = false := by
  constructor <;> cbv

theorem closesIn_nameGoal : closesIn .byOccurrence 6 (nameGoal .individual) = true ∧
    closesIn .byOccurrence 6 (nameGoal .truth) = false := by
  constructor <;> cbv

/-- **Types can decide.** With one type on both sides the first goal is found valid, with two types
it is not, under both policies: quantified formulas are compared with their types. In the other
goals both annotations make the same quantified formulas equal. In the second the type of a witness
meets the type of a constant that has its name. The last three are refuted under the occurrence
policy as long as their sides are written alike, and each of them fails one only of what it takes
for types not to count: formulas written alike in both annotations, no variable named like a
witness, names of the reader. -/
theorem annotations_matter :
    let x : Formula := .var "x" .individual
    let P : Formula := .app (.const "P" (.fn .individual .truth)) x
    let R : Formula → Formula := fun t =>
      .app (.app (.const "R" (.fn .individual (.fn .individual .truth))) t) (.var "y" .individual)
    let tautology : Ty → Formula := fun τ => .imp (.all "x" .individual P) (.all "x" τ P)
    let collision : Ty → Formula := fun τ =>
      .imp (.ex "x" τ (.all "y" .individual (R x)))
        (.all "y" .individual (R (.const "c1" .individual)))
    let unminted : List String → Prop := fun names => ∀ k : Nat, Supply.witnessName (k + 1) ∉ names
    let differ : Nat → WitnessPolicy → (Ty → Formula) → Prop := fun n p goal =>
      (goal .individual).untyped = (goal .truth).untyped ∧
        ∃ v w, prove (goal .individual) (.steps n) p = .ok v ∧
          prove (goal .truth) (.steps n) p = .ok w ∧ v.isValid = true ∧ w.isValid = false
    (Reading.parse "(∀x:i. P(x)) → ∀x:o. P(x)" = .ok (tautology .truth) ∧
        ∀ p ∈ WitnessPolicy.known, differ 1 p tautology) ∧
      ((collision .individual).Alike id (collision .truth) ∧ differ 2 .byName collision) ∧
      ((typeGoal .individual).Alike id (typeGoal .truth) ∧ (typeGoal .individual).Named ∧
        unminted (typeGoal .individual).constants ∧ unminted (typeGoal .individual).varNames ∧
        differ 6 .byOccurrence typeGoal) ∧
      ((variableGoal .individual).Alike id (variableGoal .truth) ∧
        (variableGoal .individual).Alike Formula.text (variableGoal .truth) ∧
        (variableGoal .individual).Named ∧ unminted (variableGoal .individual).constants ∧
        differ 6 .byOccurrence variableGoal) ∧
      (nameGoal .individual).Alike id (nameGoal .truth) ∧
        (nameGoal .individual).Alike Formula.text (nameGoal .truth) ∧
        unminted (nameGoal .individual).constants ∧ unminted (nameGoal .individual).varNames ∧
        differ 6 .byOccurrence nameGoal := by
  intro x P R tautology collision unminted differ
  have hunminted : ∀ names : List String, (∀ n ∈ names, n.toList.head? ≠ some 'c') →
      unminted names := fun _ h k => Supply.witnessName_notMem h (k + 1)
  have hdiffer : ∀ (n : Nat) (p : WitnessPolicy) (goal : Ty → Formula), p ∈ WitnessPolicy.known →
      (goal .individual).untyped = (goal .truth).untyped →
      closesIn p n (goal .individual) = true ∧ closesIn p n (goal .truth) = false →
      differ n p goal := by
    intro n p goal hp heq hruns
    exact ⟨heq, _, _, prove_eq_run _ n hp, prove_eq_run _ n hp, (isValid_run _ n p).trans hruns.1,
      (isValid_run _ n p).trans hruns.2⟩
  refine ⟨⟨rfl, fun p hp => ?_⟩, ⟨by decide, ?_⟩, ?_, ?_, ?_⟩
  · rcases List.mem_pair.1 hp with rfl | rfl
    · exact hdiffer 1 .byName _ hp rfl (by constructor <;> cbv)
    · exact hdiffer 1 .byOccurrence _ hp rfl (by constructor <;> cbv)
  · exact hdiffer 2 .byName _ (by decide) rfl (by constructor <;> cbv)
  · exact ⟨by decide, ⟨by decide, by decide, by decide⟩, hunminted _ (by decide),
      hunminted _ (by decide), hdiffer 6 .byOccurrence typeGoal (by decide) rfl closesIn_typeGoal⟩
  · exact ⟨by decide, by decide, ⟨by decide, by decide, by decide⟩, hunminted _ (by decide),
      hdiffer 6 .byOccurrence variableGoal (by decide) rfl closesIn_variableGoal⟩
  · exact ⟨by decide, by decide, hunminted _ (by decide), hunminted _ (by decide),
      hdiffer 6 .byOccurrence nameGoal (by decide) rfl closesIn_nameGoal⟩

end Attempt

end Refutation
