import Mathlib.Data.Set.Function
import Refutation.Proofs.Closure
import Refutation.Proofs.Formula.Recast
import Refutation.Proofs.Formula.Subformulas

/-!
# Unification and other names

`Pattern.recast` gives other names to atoms and to heads with one argument, and other entries to
sealed leaves. A head with two arguments keeps its name: `app` is not a constant there. What makes
two patterns equal makes them equal under other names as well (`Pattern.unifiable_recast`), and if
the old names can be told from the new ones, there is a way back.

* `Formula.lower_recast`: the pattern of a recast formula is the recast pattern.
* `contradiction?_recast`: **formulas are contradictory exactly if they are when recast**, where
  recasting keeps their constants and the formulas that are sealed in them apart.
-/

namespace Refutation

/-- The head with another name, if it stands above one argument and is a function. -/
def Head.recast (ρ : String → String) (arity : Nat) : Head → Head
  | .fn n => .fn (if arity = 1 then ρ n else n)
  | h => h

namespace Pattern

mutual

/-- The pattern with other names for its atoms and its heads with one argument, and other entries
in its sealed leaves. -/
def recast (ρ : String → String) (κ : Entry → Entry) : Pattern → Pattern
  | .var x => .var x
  | .atom a => .atom (ρ a)
  | .node h args => .node (h.recast ρ args.length) (recastList ρ κ args)
  | .sealed e => .sealed (κ e)
  | .plain v => .plain v
termination_by structural p => p

/-- The patterns with other names. -/
def recastList (ρ : String → String) (κ : Entry → Entry) : List Pattern → List Pattern
  | [] => []
  | p :: ps => recast ρ κ p :: recastList ρ κ ps
termination_by structural ps => ps

end

variable {ρ ρ' : String → String} {κ κ' : Entry → Entry} {p q : Pattern}

theorem recastList_eq_map (ps : List Pattern) : recastList ρ κ ps = ps.map (recast ρ κ) := by
  induction ps with
  | nil => rfl
  | cons p ps ih => rw [recastList, ih, List.map_cons]

theorem recast_node (h : Head) (args : List Pattern) :
    (node h args).recast ρ κ = .node (h.recast ρ args.length) (args.map (recast ρ κ)) := by
  rw [recast, recastList_eq_map]

/-- Other names can be given before or after variables are bound. -/
theorem recast_bind (σ : String → Pattern) (p : Pattern) :
    (p.bind σ).recast ρ κ = (p.recast ρ κ).bind fun x => (σ x).recast ρ κ := by
  induction p using induct with
  | var x => rfl
  | atom a => rfl
  | node h args ih =>
    rw [bind, bindList_eq_map, recast_node, recast_node, bind, bindList_eq_map, List.length_map,
      List.map_map, List.map_map]
    congr 1
    exact List.map_congr_left ih
  | sealed e => rfl
  | plain v => rfl

/-- Patterns unify if some assignment makes them equal. -/
theorem unifiable_iff : unifiable p q = true ↔ ∃ T, p.bind T = q.bind T := by
  unfold unifiable
  rw [unify_eq_unifyAll, Option.isSome_iff_exists]
  constructor
  · rintro ⟨r, hr⟩
    have heq : r.apply p = r.apply q :=
      List.head_eq_of_cons_eq (map_apply_eq_of_unifyAll Bindings.acyclic_nil hr).1
    rw [Bindings.apply_eq_bind, Bindings.apply_eq_bind] at heq
    exact ⟨r.ending, heq⟩
  · rintro ⟨T, hT⟩
    have hnil : Bindings.Respects T [] := fun x q hq => by cases hq
    have hmap : [p].map (bind T) = [q].map (bind T) := by
      rw [List.map_singleton, List.map_singleton, hT]
    obtain ⟨r, hr, -⟩ := exists_unifyAll hnil hmap
    exact ⟨r, hr⟩

/-- **What unifies still unifies under other names.** -/
theorem unifiable_recast (h : unifiable p q = true) :
    unifiable (p.recast ρ κ) (q.recast ρ κ) = true := by
  obtain ⟨T, hT⟩ := unifiable_iff.1 h
  refine unifiable_iff.2 ⟨fun x => (T x).recast ρ κ, ?_⟩
  rw [← recast_bind, ← recast_bind, hT]

end Pattern

namespace Formula

variable {ρ ρ' : String → String} {ε : Ty → Ty} {κ κ' : Entry → Entry} {f g : Formula}

/-- The quantified formulas that are sealed in the pattern of a formula. -/
def seals : Formula → List Formula
  | .var _ _ => []
  | .const _ _ => []
  | .app f a => f.seals ++ a.seals
  | .not b => b.seals
  | .binary _ a b => a.seals ++ b.seals
  | .quant q n τ b => [.quant q n τ b]

theorem Inward.of_mem_seals {P : Formula → Prop} (hP : Inward P) {q : Formula} (hf : P f)
    (hq : q ∈ f.seals) : P q := by
  induction f with
  | var n τ => cases hq
  | const n τ => cases hq
  | app f a ihf iha =>
    rcases List.mem_append.1 hq with hq | hq
    · exact ihf (hP.app hf).1 hq
    · exact iha (hP.app hf).2 hq
  | not b ih => exact ih (hP.not hf) hq
  | binary op a b iha ihb =>
    rcases List.mem_append.1 hq with hq | hq
    · exact iha (hP.binary hf).1 hq
    · exact ihb (hP.binary hf).2 hq
  | quant q n τ b ih =>
    obtain rfl := List.mem_singleton.1 hq
    exact hf

theorem recast_ne_const (hf : ∀ n τ, f ≠ .const n τ) : ∀ n τ, f.recast ρ ε ≠ .const n τ := by
  intro n τ h
  cases f with
  | const m σ => exact hf m σ rfl
  | _ => cases h

/-- **The pattern of a recast formula is the recast pattern.** -/
theorem lower_recast (f : Formula) :
    (f.recast ρ ε).lower = f.lower.recast ρ (Entry.recast ρ ε) := by
  induction f with
  | var n τ => rfl
  | const n τ => rfl
  | app f a ihf iha =>
    by_cases hf : ∃ n τ, f = .const n τ
    · obtain ⟨n, τ, rfl⟩ := hf
      rw [recast, recast, lower_app_const, lower_app_const, Pattern.recast_node, iha]
      rfl
    · have hne : ∀ n τ, f ≠ .const n τ := fun n τ h => hf ⟨n, τ, h⟩
      rw [recast, lower_app (recast_ne_const hne), lower_app hne, Pattern.recast_node, ihf, iha]
      rfl
  | not b ih => rw [recast, lower, lower, Pattern.recast_node, ih]; rfl
  | binary op a b iha ihb =>
    rw [recast, lower, lower, Pattern.recast_node, iha, ihb]
    cases op <;> rfl
  | quant q n τ b ih => rfl

/-- The way back from other names, if the old ones can be told from the new ones. -/
theorem recast_recast_lower (hρ : ∀ n ∈ f.constants, ρ' (ρ n) = n)
    (hκ : ∀ q ∈ f.seals, κ' (κ (.formula q)) = .formula q) :
    (f.lower.recast ρ κ).recast ρ' κ' = f.lower := by
  induction f with
  | var n τ => rfl
  | const n τ =>
    show Pattern.atom (ρ' (ρ n)) = .atom n
    rw [hρ n List.mem_cons_self]
  | app f a ihf iha =>
    have hf := ihf (fun n hn => hρ n (List.mem_append_left _ hn))
      fun q hq => hκ q (List.mem_append_left _ hq)
    have ha := iha (fun n hn => hρ n (List.mem_append_right _ hn))
      fun q hq => hκ q (List.mem_append_right _ hq)
    by_cases hc : ∃ n τ, f = .const n τ
    · obtain ⟨n, τ, rfl⟩ := hc
      rw [lower_app_const, Pattern.recast_node, Pattern.recast_node]
      show Pattern.node (.fn (ρ' (ρ n))) [_] = _
      rw [ha, hρ n List.mem_cons_self]
    · rw [lower_app fun n τ h => hc ⟨n, τ, h⟩, Pattern.recast_node, Pattern.recast_node]
      show Pattern.node .app [_, _] = _
      rw [hf, ha]
  | not b ih =>
    rw [lower, Pattern.recast_node, Pattern.recast_node]
    show Pattern.node _ [_] = _
    rw [ih hρ hκ]
    rfl
  | binary op a b iha ihb =>
    have ha := iha (fun n hn => hρ n (List.mem_append_left _ hn))
      fun q hq => hκ q (List.mem_append_left _ hq)
    have hb := ihb (fun n hn => hρ n (List.mem_append_right _ hn))
      fun q hq => hκ q (List.mem_append_right _ hq)
    rw [lower, Pattern.recast_node, Pattern.recast_node]
    show Pattern.node _ [_, _] = _
    rw [ha, hb]
    cases op <;> rfl
  | quant q n τ b ih => exact congrArg Pattern.sealed (hκ _ List.mem_cons_self)

/-- Recasting keeps the constants of formulas apart, and the formulas sealed in them. -/
structure Apart (ρ : String → String) (ε : Ty → Ty) (fs : List Formula) : Prop where
  constants : Set.InjOn ρ {n | ∃ f ∈ fs, n ∈ f.constants}
  seals : Set.InjOn (recast ρ ε) {q | ∃ f ∈ fs, q ∈ f.seals}

/-- **Where everything is kept apart, formulas unify exactly if they do when recast.** -/
theorem Apart.unifiesWith {fs : List Formula} (h : Apart ρ ε fs) (hf : f ∈ fs)
    (hg : .not g ∈ fs) :
    (f.recast ρ ε).unifiesWith (g.recast ρ ε) = f.unifiesWith g := by
  -- the way back: each name to the one it was made from, and each sealed formula likewise
  let ρ' := Function.invFunOn ρ {n | ∃ f ∈ fs, n ∈ f.constants}
  let back := Function.invFunOn (recast ρ ε) {q | ∃ f ∈ fs, q ∈ f.seals}
  let κ' : Entry → Entry
    | .formula q => .formula (back q)
    | e => e
  have hback : ∀ j ∈ fs, ∀ k : Formula, j.constants = k.constants → j.seals = k.seals →
      (k.recast ρ ε).lower.recast ρ' κ' = k.lower := by
    intro j hj k hconst hseals
    rw [lower_recast]
    refine recast_recast_lower (fun n hn => ?_) fun q hq => ?_
    · exact h.constants.leftInvOn_invFunOn ⟨j, hj, hconst ▸ hn⟩
    · exact congrArg Entry.formula (h.seals.leftInvOn_invFunOn ⟨j, hj, hseals ▸ hq⟩)
  rw [Bool.eq_iff_iff]
  constructor
  · intro hu
    have hu' := Pattern.unifiable_recast (ρ := ρ') (κ := κ') hu
    rwa [hback f hf f rfl rfl, hback _ hg g rfl rfl] at hu'
  · intro hu
    show unifiable _ _ = true
    rw [lower_recast, lower_recast]
    exact Pattern.unifiable_recast hu

end Formula

/-- **Formulas are contradictory exactly if they are when recast**, where recasting keeps apart
what is different in them. -/
theorem contradiction?_recast {ρ : String → String} {ε : Ty → Ty} {fs : List Formula}
    (h : Formula.Apart ρ ε fs) :
    (contradiction? (fs.map (Formula.recast ρ ε))).isSome = (contradiction? fs).isSome := by
  rw [Bool.eq_iff_iff, contradiction?_isSome_iff_unifies, contradiction?_isSome_iff_unifies]
  constructor
  · rintro ⟨p, q, hp, hn, hq, hu⟩
    obtain ⟨f, hf, rfl⟩ := List.mem_map.1 hp
    obtain ⟨k, hk, hkq⟩ := List.mem_map.1 hq
    cases k with
    | not g =>
      cases hkq
      rw [Formula.isNot_recast] at hn
      rw [h.unifiesWith hf hk] at hu
      exact ⟨f, g, hf, hn, hk, hu⟩
    | _ => cases hkq
  · rintro ⟨f, g, hf, hn, hg, hu⟩
    rw [← Formula.isNot_recast (ρ := ρ) (ε := ε)] at hn
    rw [← h.unifiesWith hf hg] at hu
    exact ⟨_, _, List.mem_map_of_mem hf, hn, List.mem_map_of_mem hg, hu⟩

end Refutation
