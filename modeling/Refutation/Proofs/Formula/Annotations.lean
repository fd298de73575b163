import Mathlib.SetTheory.Cardinal.SchroederBernstein
import Refutation.Proofs.Formula.Readable
import Refutation.Proofs.Pattern.Recast

/-!
# Formulas with other annotations

Two formulas that are equal up to types are one formula with two types at each place. A type can
stand for a pair of types (`Ty.exists_pairing`), so that there is such a formula
(`Formula.exists_joint`), and both are got from it by recasting.

Types count where quantified formulas are compared. A witness takes the place of the variables that
are bound around a quantified formula, so their types do not count there: they are left out in
`Formula.quantified`. `Formula.Alike` compares what the annotations of two formulas make equal.

* `Formula.quantified_recast`: the quantified formulas are recast with the formula.
* `Formula.eq_of_withdraw`: **an instance is known from its names and types under one annotation and
  from the types of what it is an instance of under the other.**
-/

namespace Refutation

/-- **A type can stand for a pair of types**, and for a pair without types if it is none. -/
theorem Ty.exists_pairing : ∃ e : Ty ≃ Ty × Ty, e .unknown = (.unknown, .unknown) := by
  have hpair : Function.Injective fun s : Ty × Ty => Ty.fn s.1 s.2 := by
    rintro ⟨a, b⟩ ⟨c, d⟩ h
    exact Prod.ext (Ty.fn.inj h).1 (Ty.fn.inj h).2
  have hdiag : Function.Injective fun τ : Ty => (τ, τ) := fun σ τ h => (Prod.mk.inj h).1
  obtain ⟨e⟩ := Function.Embedding.antisymm ⟨_, hdiag⟩ ⟨_, hpair⟩
  refine ⟨(Equiv.swap .unknown (e.symm (.unknown, .unknown))).trans e, ?_⟩
  rw [Equiv.trans_apply, Equiv.swap_apply_left, Equiv.apply_symm_apply]

/-- A quantified formula, where the types of the variables bound around it are left out. -/
def Subformula.faded (s : Subformula) : Formula :=
  s.formula.instantiate fun x => if x ∈ s.scope then some (.var x .unknown) else none

namespace Formula

/-- The quantified formulas that are sealed in the subformulas of a formula, each of them faded. -/
def quantified (f : Formula) : List Formula :=
  f.subformulas.flatMap fun s => s.formula.seals.map fun q => Subformula.faded ⟨q, s.scope⟩

/-- Two quantified formulas of one formula look the same exactly if the corresponding ones of the
other do. -/
def Alike {α : Type} (view : Formula → α) (f g : Formula) : Prop :=
  ∀ u ∈ f.quantified.zip g.quantified, ∀ v ∈ f.quantified.zip g.quantified,
    view u.1 = view v.1 ↔ view u.2 = view v.2

instance {α : Type} [DecidableEq α] (view : Formula → α) (f g : Formula) :
    Decidable (Alike view f g) :=
  inferInstanceAs (Decidable (∀ u ∈ _, ∀ v ∈ _, _ ↔ _))

variable {f g q : Formula} {ρ : String → Option Formula} {r : String → String} {ε ε' : Ty → Ty}
  {xs : List String}

theorem mem_quantified {s : Subformula} (hs : s ∈ f.subformulas) (hq : q ∈ s.formula.seals) :
    Subformula.faded ⟨q, s.scope⟩ ∈ f.quantified :=
  List.mem_flatMap.2 ⟨s, hs, List.mem_map_of_mem hq⟩

theorem Inward.of_sealed {P : Formula → Prop} (hP : Inward P) (hf : P f) {s : Subformula}
    (hs : s ∈ f.subformulas) (hq : q ∈ s.formula.seals) : P q :=
  hP.of_mem_seals (hP.of_mem_subformulasIn hf hs) hq

/-- **Formulas that are equal up to types are one formula with two types at each place.** -/
theorem exists_joint (e : Ty ≃ Ty × Ty) (h : f.untyped = g.untyped) :
    ∃ k : Formula, k.recast id (fun τ => (e τ).1) = f ∧ k.recast id (fun τ => (e τ).2) = g := by
  induction f generalizing g with
  | var n τ =>
    cases g with
    | var m σ => cases h; exact ⟨.var n (e.symm (τ, σ)), by simp [recast], by simp [recast]⟩
    | _ => cases h
  | const n τ =>
    cases g with
    | const m σ => cases h; exact ⟨.const n (e.symm (τ, σ)), by simp [recast], by simp [recast]⟩
    | _ => cases h
  | app f a ihf iha =>
    cases g with
    | app f' a' =>
      obtain ⟨hf, ha⟩ := Formula.app.inj h
      obtain ⟨k, rfl, rfl⟩ := ihf hf
      obtain ⟨j, rfl, rfl⟩ := iha ha
      exact ⟨.app k j, rfl, rfl⟩
    | _ => cases h
  | not b ih =>
    cases g with
    | not b' =>
      obtain ⟨k, rfl, rfl⟩ := ih (Formula.not.inj h)
      exact ⟨.not k, rfl, rfl⟩
    | _ => cases h
  | binary op a b iha ihb =>
    cases g with
    | binary op' a' b' =>
      obtain ⟨rfl, ha, hb⟩ := Formula.binary.inj h
      obtain ⟨k, rfl, rfl⟩ := iha ha
      obtain ⟨j, rfl, rfl⟩ := ihb hb
      exact ⟨.binary op k j, rfl, rfl⟩
    | _ => cases h
  | quant q n τ b ih =>
    cases g with
    | quant q' m σ b' =>
      obtain ⟨rfl, rfl, -, hb⟩ := Formula.quant.inj h
      obtain ⟨k, rfl, rfl⟩ := ih hb
      exact ⟨.quant q n (e.symm (τ, σ)) k, by simp [recast], by simp [recast]⟩
    | _ => cases h

/-! ## Recasting instances and subformulas -/

theorem recast_instantiate (ρ : String → Option Formula) (f : Formula) :
    (f.instantiate ρ).recast r ε =
      (f.recast r ε).instantiate fun x => (ρ x).map (recast r ε) := by
  induction f generalizing ρ with
  | var n τ =>
    rw [instantiate, recast, instantiate]
    cases ρ n <;> rfl
  | const n τ => rfl
  | app f a ihf iha => rw [instantiate, recast, recast, instantiate, ihf, iha]
  | not b ih => rw [instantiate, recast, recast, instantiate, ih]
  | binary op a b iha ihb => rw [instantiate, recast, recast, instantiate, iha, ihb]
  | quant q n τ b ih =>
    rw [instantiate, recast, recast, instantiate, ih]
    congr 2
    funext x
    by_cases hx : x = n
    · rw [hx, Function.update_self, Function.update_self]; rfl
    · rw [Function.update_of_ne hx, Function.update_of_ne hx]

theorem seals_instantiate (hρ : Constants ρ) (f : Formula) :
    (f.instantiate ρ).seals = f.seals.map (instantiate ρ) := by
  induction f with
  | var n τ =>
    rw [instantiate]
    cases hn : ρ n with
    | none => rfl
    | some w =>
      obtain ⟨c, σ, rfl⟩ := hρ n w hn
      rfl
  | const n τ => rfl
  | app f a ihf iha => rw [instantiate, seals, seals, ihf, iha, List.map_append]
  | not b ih => rw [instantiate, seals, seals, ih]
  | binary op a b iha ihb => rw [instantiate, seals, seals, iha, ihb, List.map_append]
  | quant q n τ b ih => rfl

theorem seals_recast (f : Formula) : (f.recast r ε).seals = f.seals.map (recast r ε) := by
  induction f with
  | app f a ihf iha => rw [recast, seals, seals, ihf, iha, List.map_append]
  | not b ih => rw [recast, seals, seals, ih]
  | binary op a b iha ihb => rw [recast, seals, seals, iha, ihb, List.map_append]
  | _ => rfl

theorem subformulasIn_recast (f : Formula) (xs : List String) :
    (f.recast r ε).subformulasIn xs =
      (f.subformulasIn xs).map fun s => ⟨s.formula.recast r ε, s.scope⟩ := by
  induction f generalizing xs with
  | not b ih => rw [recast, subformulasIn, subformulasIn, ih, List.map_cons]; rfl
  | binary op a b iha ihb =>
    by_cases hop : op = .eq
    · subst hop; rfl
    · rw [recast, subformulasIn_binary hop, subformulasIn_binary hop, iha, ihb, List.map_cons,
        List.map_append]
      rfl
  | quant q n τ b ih => rw [recast, subformulasIn, subformulasIn, ih, List.map_cons]; rfl
  | _ => rfl

theorem faded_recast (hε : ε .unknown = .unknown) (q : Formula) (xs : List String) :
    Subformula.faded ⟨q.recast r ε, xs⟩ = (Subformula.faded ⟨q, xs⟩).recast r ε := by
  unfold Subformula.faded
  rw [recast_instantiate]
  congr 1
  funext x
  by_cases hx : x ∈ xs
  · simp [hx, recast, hε]
  · simp [hx]

theorem quantified_recast (hε : ε .unknown = .unknown) (f : Formula) :
    (f.recast r ε).quantified = f.quantified.map (recast r ε) := by
  unfold quantified subformulas
  rw [subformulasIn_recast, List.flatMap_map, List.map_flatMap]
  congr 1
  funext s
  rw [seals_recast, List.map_map, List.map_map]
  refine List.map_congr_left fun q _ => ?_
  exact faded_recast hε q s.scope

/-- Of two annotations of one formula, both make the same quantified formulas look the same. -/
theorem Alike.recast_iff {α : Type} {view : Formula → α} (hε : ε .unknown = .unknown)
    (hε' : ε' .unknown = .unknown) (h : (f.recast id ε).Alike view (f.recast id ε')) {u v : Formula}
    (hu : u ∈ f.quantified) (hv : v ∈ f.quantified) :
    view (u.recast id ε) = view (v.recast id ε) ↔
      view (u.recast id ε') = view (v.recast id ε') := by
  have hzip : (f.recast id ε).quantified.zip (f.recast id ε').quantified =
      f.quantified.map fun q => (q.recast id ε, q.recast id ε') := by
    rw [quantified_recast hε, quantified_recast hε', List.zip_map']
  unfold Alike at h
  rw [hzip] at h
  exact h _ (List.mem_map_of_mem hu) _ (List.mem_map_of_mem hv)

/-! ## Taking witnesses back -/

/-- The formula with other formulas in the place of its constants. -/
def mapConstants (h : String → Ty → Formula) : Formula → Formula
  | .var n τ => .var n τ
  | .const n τ => h n τ
  | .app f a => .app (f.mapConstants h) (a.mapConstants h)
  | .not b => .not (b.mapConstants h)
  | .binary op a b => .binary op (a.mapConstants h) (b.mapConstants h)
  | .quant q n τ b => .quant q n τ (b.mapConstants h)

theorem mapConstants_instantiate {h : String → Ty → Formula}
    (hf : ∀ c ∈ f.constants, ∀ τ, h c τ = .const c τ) :
    (f.instantiate ρ).mapConstants h = f.instantiate fun x => (ρ x).map (mapConstants h) := by
  induction f generalizing ρ with
  | var n τ =>
    rw [instantiate, instantiate]
    cases ρ n <;> rfl
  | const n τ => exact hf n List.mem_cons_self τ
  | app f a ihf iha =>
    rw [instantiate, instantiate, mapConstants, ihf fun c hc => hf c (List.mem_append_left _ hc),
      iha fun c hc => hf c (List.mem_append_right _ hc)]
  | not b ih => rw [instantiate, instantiate, mapConstants, ih hf]
  | binary op a b iha ihb =>
    rw [instantiate, instantiate, mapConstants, iha fun c hc => hf c (List.mem_append_left _ hc),
      ihb fun c hc => hf c (List.mem_append_right _ hc)]
  | quant q n τ b ih =>
    rw [instantiate, instantiate, mapConstants, ih hf]
    congr 2
    funext x
    by_cases hx : x = n
    · rw [hx, Function.update_self, Function.update_self]; rfl
    · rw [Function.update_of_ne hx, Function.update_of_ne hx]

section

variable {o : String → Option (String × Ty)}

/-- The variables are put back for which witnesses stand, without their types. -/
def withdraw (o : String → Option (String × Ty)) : Formula → Formula :=
  mapConstants fun c τ => ((o c).map fun v => .var v.1 .unknown).getD (.const c τ)

/-- Witnesses get the type with which they were minted. -/
def stamp (o : String → Option (String × Ty)) : Formula → Formula :=
  mapConstants fun c τ => .const c (((o c).map Prod.snd).getD τ)

theorem withdraw_instantiate (hρ : Fills (fun x c τ => o c = some (x, τ)) xs ρ)
    (hf : ∀ c ∈ f.constants, o c = none) :
    (f.instantiate ρ).withdraw o = Subformula.faded ⟨f, xs⟩ := by
  unfold withdraw Subformula.faded
  rw [mapConstants_instantiate fun c hc τ => by rw [hf c hc]; rfl]
  congr 1
  funext x
  by_cases hx : x ∈ xs
  · obtain ⟨c, τ, hc, ho⟩ := hρ.inside x hx
    simp [hc, hx, mapConstants, ho]
  · rw [hρ.outside x hx]
    simp [hx]

theorem stamp_instantiate (hρ : Fills (fun x c τ => o c = some (x, τ)) xs ρ)
    (hf : ∀ c ∈ f.constants, o c = none) :
    (f.instantiate ρ).stamp o = f.instantiate ρ := by
  unfold stamp
  rw [mapConstants_instantiate fun c hc τ => by rw [hf c hc]; rfl]
  congr 1
  funext x
  cases hx : ρ x with
  | none => rfl
  | some w =>
    obtain ⟨c, τ, rfl, ho⟩ := hρ.stands hx
    simp [mapConstants, ho]

theorem withdraw_recast (hε : ε .unknown = .unknown) (f : Formula) :
    (f.recast id ε).withdraw o = (f.withdraw o).recast id ε := by
  unfold withdraw
  induction f with
  | var n τ => rfl
  | const n τ =>
    show ((o n).map _).getD _ = _
    rw [mapConstants]
    cases o n with
    | none => rfl
    | some v => simp [recast, hε]
  | app f a ihf iha => rw [recast, mapConstants, mapConstants, recast, ihf, iha]
  | not b ih => rw [recast, mapConstants, mapConstants, recast, ih]
  | binary op a b iha ihb => rw [recast, mapConstants, mapConstants, recast, iha, ihb]
  | quant q n τ b ih => rw [recast, mapConstants, mapConstants, recast, ih]

/-- **An instance is known from its names and types under one annotation, and from the types of
what it is an instance of under the other.** -/
theorem eq_of_withdraw (hpair : ∀ σ τ, ε σ = ε τ → ε' σ = ε' τ → σ = τ) (hf : f.stamp o = f)
    (hg : g.stamp o = g) (h : f.recast id ε = g.recast id ε)
    (h' : (f.withdraw o).recast id ε' = (g.withdraw o).recast id ε') : f = g := by
  unfold stamp at hf hg
  unfold withdraw at h'
  induction f generalizing g with
  | var n τ =>
    cases g with
    | var m σ =>
      obtain ⟨rfl, hτ⟩ := Formula.var.inj h
      rw [hpair τ σ hτ (Formula.var.inj h').2]
    | _ => cases h
  | const n τ =>
    cases g with
    | const m σ =>
      obtain ⟨hn, hτ⟩ := Formula.const.inj h
      replace hn : n = m := hn
      subst hn
      -- the type of a witness is known from its name
      simp only [mapConstants] at hf hg h'
      cases ho : o n with
      | some v =>
        rw [ho] at hf hg
        rw [← hf, ← hg]
        rfl
      | none =>
        rw [ho] at h'
        rw [hpair τ σ hτ (Formula.const.inj h').2]
    | _ => cases h
  | app f a ihf iha =>
    cases g with
    | app f' a' =>
      obtain ⟨hf₁, hf₂⟩ := Formula.app.inj hf
      obtain ⟨hg₁, hg₂⟩ := Formula.app.inj hg
      obtain ⟨h₁, h₂⟩ := Formula.app.inj h
      obtain ⟨h₁', h₂'⟩ := Formula.app.inj h'
      rw [ihf hf₁ hg₁ h₁ h₁', iha hf₂ hg₂ h₂ h₂']
    | _ => cases h
  | not b ih =>
    cases g with
    | not b' =>
      rw [ih (Formula.not.inj hf) (Formula.not.inj hg) (Formula.not.inj h) (Formula.not.inj h')]
    | _ => cases h
  | binary op a b iha ihb =>
    cases g with
    | binary op' a' b' =>
      obtain ⟨-, hf₁, hf₂⟩ := Formula.binary.inj hf
      obtain ⟨-, hg₁, hg₂⟩ := Formula.binary.inj hg
      obtain ⟨rfl, h₁, h₂⟩ := Formula.binary.inj h
      obtain ⟨-, h₁', h₂'⟩ := Formula.binary.inj h'
      rw [iha hf₁ hg₁ h₁ h₁', ihb hf₂ hg₂ h₂ h₂']
    | _ => cases h
  | quant q n τ b ih =>
    cases g with
    | quant q' m σ b' =>
      obtain ⟨-, -, -, hf₁⟩ := Formula.quant.inj hf
      obtain ⟨-, -, -, hg₁⟩ := Formula.quant.inj hg
      obtain ⟨rfl, rfl, hτ, h₁⟩ := Formula.quant.inj h
      obtain ⟨-, -, hτ', h₁'⟩ := Formula.quant.inj h'
      rw [ih hf₁ hg₁ h₁ h₁', hpair τ σ hτ hτ']
    | _ => cases h

end

end Formula

end Refutation
