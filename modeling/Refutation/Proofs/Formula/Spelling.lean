import Refutation.Attempt.Basic
import Refutation.Proofs.Formula.Annotations

/-!
# The text of an instance

The text of a formula is that of its spelling, which keeps the names and the types of binders
(`text_spelled`). So with the names of the reader, equal texts are equal spellings, and keys of
the occurrence policy are equal exactly if spellings and branches are (`Named.key_eq_iff`).

* `spelled_instantiate`: the spelling of an instance with the old names put back is the old one.
* `spelled_eq_of_recast`: **the spelling of an instance is known from its spelling under one
  annotation and from the binders of what it is an instance of under the other.**
-/

namespace Refutation.Formula

variable {f g : Formula} {ρ : String → Option Formula} {ω : String → String} {ε ε' : Ty → Ty}

/-! ## Texts and keys -/

theorem symbol?_head_spelled (f : Formula) : f.spelled.head.symbol? = f.head.symbol? := by
  induction f with
  | app f a ihf _ => exact ihf
  | _ => rfl

/-- The text of a formula is the text of its spelling. -/
theorem text_spelled (f : Formula) : f.spelled.text = f.text := by
  -- the induction carries the texts of the arguments along
  suffices h : f.spelled.text = f.text ∧ f.spelled.argTexts = f.argTexts from h.1
  induction f with
  | var n τ => exact ⟨rfl, rfl⟩
  | const n τ => exact ⟨rfl, rfl⟩
  | app f a ihf iha =>
    obtain ⟨hf, hargs⟩ := ihf
    obtain ⟨ha, -⟩ := iha
    refine ⟨?_, ?_⟩
    · rw [spelled, text, text, symbol?_head_spelled, hf, hargs, ha]
    · rw [spelled, argTexts, argTexts, hargs, ha]
  | not b ih => exact ⟨by rw [spelled, text, text, ih.1], rfl⟩
  | binary op a b iha ihb => exact ⟨by rw [spelled, text, text, iha.1, ihb.1], rfl⟩
  | quant q n τ b ih => exact ⟨by rw [spelled, text, text, ih.1], rfl⟩

theorem text_eq_of_spelled_eq (h : f.spelled = g.spelled) : f.text = g.text := by
  rw [← text_spelled f, h, text_spelled]

theorem Named.spelled_eq_of_text_eq (hf : f.Named) (hg : g.Named) (h : f.text = g.text) :
    f.spelled = g.spelled := by
  have hstop : Stops [] := fun c hc => by cases hc
  exact (hf.legible g [] [] hg hstop hstop (by rw [h])).1

/-- **Two keys of the occurrence policy are equal exactly if the formulas are spelled alike and
stand on branches that are written alike.** -/
theorem Named.key_eq_iff (hf : f.Named) (hg : g.Named) {x y : Option String} {i j : List String} :
    WitnessPolicy.byOccurrence.key x f.text i = WitnessPolicy.byOccurrence.key y g.text j ↔
      f.spelled = g.spelled ∧ "/".intercalate i = "/".intercalate j := by
  simp only [WitnessPolicy.key, if_true, Option.some.injEq]
  constructor
  · intro h
    have hchars := congrArg String.toList h
    simp only [String.toList_append, List.append_assoc] at hchars
    have hstop : ∀ r : List Char, Stops ("@".toList ++ r) := fun r => stops_cons rfl (by decide)
    obtain ⟨hspell, hrest⟩ := hf.legible g _ _ hg (hstop _) (hstop _) hchars
    exact ⟨hspell, String.toList_inj.1 (List.append_cancel_left hrest)⟩
  · rintro ⟨hspell, hpath⟩
    rw [text_eq_of_spelled_eq hspell, hpath]

/-- What a formula binds can be told from its spelling. -/
theorem binding?_spelled (f : Formula) : f.spelled.binding? = f.binding? := by
  cases f with
  | not a =>
    cases a with
    | binary op a b => cases op <;> rfl
    | quant q n τ b => cases q <;> rfl
    | _ => rfl
  | binary op a b => cases op <;> rfl
  | quant q n τ b => cases q <;> rfl
  | _ => rfl

/-! ## Other annotations -/

theorem varNames_recast (f : Formula) : (f.recast ω ε).varNames = f.varNames := by
  induction f with
  | app f a ihf iha => rw [recast, varNames, varNames, ihf, iha]
  | not b ih => exact ih
  | binary op a b iha ihb => rw [recast, varNames, varNames, iha, ihb]
  | quant q n τ b ih => exact ih
  | _ => rfl

theorem binders_recast (f : Formula) : (f.recast ω ε).binders = f.binders := by
  induction f with
  | app f a ihf iha => rw [recast, binders, binders, ihf, iha]
  | not b ih => exact ih
  | binary op a b iha ihb => rw [recast, binders, binders, iha, ihb]
  | quant q n τ b ih => rw [recast, binders, binders, ih]
  | _ => rfl

theorem Named.of_mem_pieces (hf : f.Named) (hg : g ∈ f.pieces) : g.Named :=
  ⟨fun n hn => hf.constants n (constants_of_mem_pieces hg hn),
    fun n hn => hf.varNames n (varNames_of_mem_pieces hg hn),
    fun n hn => hf.binders n (binders_of_mem_pieces hg hn)⟩

theorem inward_named : Inward Named where
  app h := ⟨h.app_left, h.app_right⟩
  not h := h.not_body
  binary h := ⟨h.binary_left, h.binary_right⟩
  quant h := h.quant_body

theorem named_recast_iff : (f.recast id ε).Named ↔ f.Named := by
  have hconst : (f.recast id ε).constants = f.constants := by rw [constants_recast, List.map_id]
  constructor
  · rintro ⟨hc, hv, hb⟩
    rw [hconst] at hc
    rw [varNames_recast] at hv
    rw [binders_recast] at hb
    exact ⟨hc, hv, hb⟩
  · rintro ⟨hc, hv, hb⟩
    rw [← hconst] at hc
    rw [← varNames_recast (ω := id) (ε := ε)] at hv
    rw [← binders_recast (ω := id) (ε := ε)] at hb
    exact ⟨hc, hv, hb⟩

/-- Formulas that are spelled alike are so under any annotation got from theirs. -/
theorem spelled_recast_congr (h : f.spelled = g.spelled) :
    (f.recast id ε).spelled = (g.recast id ε).spelled := by
  have hspelled : ∀ k : Formula, (k.recast id ε).spelled = (k.spelled.recast id ε).spelled := by
    intro k
    induction k with
    | app f a ihf iha => simp only [recast, spelled, ihf, iha]
    | not b ih => simp only [recast, spelled, ih]
    | binary op a b iha ihb => simp only [recast, spelled, iha, ihb]
    | quant q n τ b ih => simp only [recast, spelled, ih]
    | _ => rfl
  rw [hspelled f, h, ← hspelled g]

/-- The spelling of an instance with the old names put back. -/
theorem spelled_instantiate (hρ : ∀ x w, ρ x = some w → ∃ c τ, w = .const c τ ∧ ω c = x)
    (hconst : ∀ n ∈ f.constants, ω n = n) (hvar : ∀ n ∈ f.varNames, ω n = n) :
    (f.instantiate ρ).spelled.recast ω id = f.spelled := by
  induction f generalizing ρ with
  | var n τ =>
    rw [instantiate]
    cases hn : ρ n with
    | none =>
      show Formula.const (ω n) .individual = .const n .individual
      rw [hvar n List.mem_cons_self]
    | some w =>
      obtain ⟨c, σ, rfl, hc⟩ := hρ n w hn
      show Formula.const (ω c) .individual = .const n .individual
      rw [hc]
  | const n τ =>
    show Formula.const (ω n) .individual = .const n .individual
    rw [hconst n List.mem_cons_self]
  | app f a ihf iha =>
    simp only [constants, varNames, List.forall_mem_append] at hconst hvar
    rw [instantiate, spelled, Formula.recast, ihf hρ hconst.1 hvar.1, iha hρ hconst.2 hvar.2,
      spelled]
  | not b ih => rw [instantiate, spelled, Formula.recast, ih hρ hconst hvar, spelled]
  | binary op a b iha ihb =>
    simp only [constants, varNames, List.forall_mem_append] at hconst hvar
    rw [instantiate, spelled, Formula.recast, iha hρ hconst.1 hvar.1, ihb hρ hconst.2 hvar.2,
      spelled]
  | quant q n τ b ih =>
    have hupdate : ∀ x w, Function.update ρ n none x = some w → ∃ c τ, w = .const c τ ∧ ω c = x := by
      intro x w hx
      by_cases hn : x = n
      · rw [hn, Function.update_self] at hx; cases hx
      · rw [Function.update_of_ne hn] at hx
        exact hρ x w hx
    rw [instantiate, spelled, Formula.recast, ih hupdate hconst hvar, spelled]
    rfl

/-- Fading changes nothing that is spelled. -/
theorem spelled_faded (s : Subformula) : s.faded.spelled = s.formula.spelled := by
  have hvars : ∀ (k : Formula) (ρ : String → Option Formula),
      (∀ x w, ρ x = some w → ∃ τ, w = .var x τ) → (k.instantiate ρ).spelled = k.spelled := by
    intro k
    induction k with
    | var n τ =>
      intro ρ hρ
      rw [instantiate]
      cases hn : ρ n with
      | none => rfl
      | some w =>
        obtain ⟨σ, rfl⟩ := hρ n w hn
        rfl
    | const n τ => exact fun _ _ => rfl
    | app f a ihf iha => intro ρ hρ; rw [instantiate, spelled, spelled, ihf ρ hρ, iha ρ hρ]
    | not b ih => intro ρ hρ; rw [instantiate, spelled, spelled, ih ρ hρ]
    | binary op a b iha ihb => intro ρ hρ; rw [instantiate, spelled, spelled, iha ρ hρ, ihb ρ hρ]
    | quant q n τ b ih =>
      intro ρ hρ
      rw [instantiate, spelled, spelled, ih]
      intro x w hx
      by_cases hn : x = n
      · rw [hn, Function.update_self] at hx; cases hx
      · rw [Function.update_of_ne hn] at hx
        exact hρ x w hx
  refine hvars s.formula _ fun x w hx => ?_
  by_cases hmem : x ∈ s.scope
  · rw [if_pos hmem] at hx
    exact ⟨.unknown, (Option.some.inj hx).symm⟩
  · rw [if_neg hmem] at hx
    cases hx

theorem text_faded (s : Subformula) : s.faded.text = s.formula.text :=
  text_eq_of_spelled_eq (spelled_faded s)

/-- **A spelling is known from the names and types under one annotation and from the types under
the other.** -/
theorem spelled_eq_of_recast (hpair : ∀ σ τ, ε σ = ε τ → ε' σ = ε' τ → σ = τ)
    (h : (f.recast id ε).spelled = (g.recast id ε).spelled)
    (h' : (f.recast id ε').spelled.recast ω id = (g.recast id ε').spelled.recast ω id) :
    f.spelled = g.spelled := by
  induction f generalizing g with
  | var n τ =>
    cases g with
    | var m σ => exact h
    | const m σ => exact h
    | _ => cases h
  | const n τ =>
    cases g with
    | var m σ => exact h
    | const m σ => exact h
    | _ => cases h
  | app f a ihf iha =>
    cases g with
    | app f' a' =>
      obtain ⟨h₁, h₂⟩ := Formula.app.inj h
      obtain ⟨h₁', h₂'⟩ := Formula.app.inj h'
      rw [spelled, spelled, ihf h₁ h₁', iha h₂ h₂']
    | _ => cases h
  | not b ih =>
    cases g with
    | not b' => rw [spelled, spelled, ih (Formula.not.inj h) (Formula.not.inj h')]
    | _ => cases h
  | binary op a b iha ihb =>
    cases g with
    | binary op' a' b' =>
      obtain ⟨rfl, h₁, h₂⟩ := Formula.binary.inj h
      obtain ⟨-, h₁', h₂'⟩ := Formula.binary.inj h'
      rw [spelled, spelled, iha h₁ h₁', ihb h₂ h₂']
    | _ => cases h
  | quant q n τ b ih =>
    cases g with
    | quant q' m σ b' =>
      obtain ⟨rfl, rfl, hτ, h₁⟩ := Formula.quant.inj h
      obtain ⟨-, -, hτ', h₁'⟩ := Formula.quant.inj h'
      rw [spelled, spelled, ih h₁ h₁', hpair τ σ hτ hτ']
    | _ => cases h

end Refutation.Formula
