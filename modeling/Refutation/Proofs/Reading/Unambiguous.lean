import Refutation.Proofs.Reading.RoundTrip

/-!
# Formulas that can be told from their texts

Three habits of writing keep the printer and the reader in step: only symbols are applied to
arguments, no side of an equation is a negation or a quantified formula, and no left side of
another connective is a quantified formula, plain or negated any number of times. A formula
that keeps to them (`Formula.unambiguous`) has all the brackets it needs in its text.

* `Formula.wellBracketed_of_unambiguous`: such a formula is bracketed well.
* `Formula.parse_text_of_unambiguous`: **so its text is read as the formula itself.**
-/

namespace Refutation

open Reading

namespace Formula

/-- What is left when all outer negations are taken off. -/
def stripped : Formula → Formula
  | .not b => b.stripped
  | f => f

/-- Whether a formula is quantified. -/
def isQuantified : Formula → Bool
  | .quant _ _ _ _ => true
  | _ => false

/-- Only symbols are applied, no side of an equation is a negation or a quantified formula,
and no left side of another connective is a quantified formula under any number of
negations. -/
def unambiguous : Formula → Bool
  | .var _ _ => true
  | .const _ _ => true
  | .app f a => (app f a).head.symbol?.isSome && f.unambiguous && a.unambiguous
  | .not b => b.unambiguous
  | .binary .eq l r =>
    !l.isNot && !l.isQuantified && !r.isNot && !r.isQuantified && l.unambiguous && r.unambiguous
  | .binary _ l r => !l.stripped.isQuantified && l.unambiguous && r.unambiguous
  | .quant _ _ _ b => b.unambiguous

variable {f l r : Formula}

theorem isPrefixed_eq (f : Formula) : f.isPrefixed = (f.isNot || f.isQuantified) := by
  cases f <;> rfl

/-- An equation closes nothing, so its left side must end by itself. -/
theorem endsBefore_eq_iff : l.endsBefore .eq = true ↔ l.isPrefixed = false := by
  cases l <;> simp [endsBefore, isPrefixed]

/-- Any other connective closes negations, but not the body of a quantifier. -/
theorem endsBefore_iff {op : Connective} (hop : op ≠ .eq) :
    l.endsBefore op = true ↔ l.stripped.isQuantified = false := by
  induction l with
  | not b ih => simp [endsBefore, hop, stripped, ih]
  | _ => simp [endsBefore, stripped, isQuantified]

/-- **A formula that keeps to the three habits is bracketed well.** -/
theorem wellBracketed_of_unambiguous (h : f.unambiguous = true) : f.wellBracketed = true := by
  induction f with
  | var n τ => rfl
  | const n τ => rfl
  | app f a ihf iha =>
    simp only [unambiguous, Bool.and_eq_true] at h
    obtain ⟨⟨hhead, hf⟩, ha⟩ := h
    have hsymbol : f.head.symbol?.isSome = true := hhead
    simp [wellBracketed, ihf hf, iha ha, hsymbol]
  | not b ih => exact ih h
  | binary op l r ihl ihr =>
    by_cases hop : op = .eq
    · subst hop
      simp only [unambiguous, Bool.and_eq_true, Bool.not_eq_true'] at h
      obtain ⟨⟨⟨⟨⟨hln, hlq⟩, hrn⟩, hrq⟩, hl⟩, hr⟩ := h
      have hleft : l.isPrefixed = false := by rw [isPrefixed_eq, hln, hlq]; rfl
      have hright : r.isPrefixed = false := by rw [isPrefixed_eq, hrn, hrq]; rfl
      simp [wellBracketed, ihl hl, ihr hr, endsBefore_eq_iff.2 hleft, hright]
    · have hparts : l.stripped.isQuantified = false ∧ l.unambiguous = true ∧
          r.unambiguous = true := by
        cases op with
        | eq => exact absurd rfl hop
        | _ => simpa [unambiguous, and_assoc] using h
      obtain ⟨hquant, hl, hr⟩ := hparts
      simp [wellBracketed, ihl hl, ihr hr, (endsBefore_iff hop).2 hquant, hop]
  | quant q x τ b ih => exact ih h

/-- **The text of an unambiguous formula is read as the formula itself**, if its symbols are
those of the signature, its names are names and its bound variables have types that can be
named. -/
theorem parse_text_of_unambiguous (hd : f.Declared) (hu : f.unambiguous = true) :
    parse f.text = .ok f :=
  hd.parse_text_eq_self_iff.2 (wellBracketed_of_unambiguous hu)

/-- A quantified formula on the right of a connective and under a negation, an application with
two arguments and a negated equation are read back together. -/
theorem parse_text_of_unambiguous_relation :
    let x : Formula := .var "x" .individual
    let y : Formula := .var "y" .individual
    let R : Formula := .const "R" (.fn .individual (.fn .individual .truth))
    let f : Formula := .const "f" (.fn .individual .individual)
    let p : Formula := .const "p_1" .individual
    let g : Formula := .imp (.not (.eq x p))
      (.not (.all "y" .truth (.and (.app (.app R (.app f x)) y) (.ex "z" .individual y))))
    g.Declared ∧ g.unambiguous = true ∧
      g.text = "(¬(x = p_1) → ¬∀y:o.((R(f(x), y) ∧ ∃z:i.(y))))" ∧ parse g.text = .ok g := by
  intro x y R f p g
  have hd : g.Declared := by
    simp only [g, x, y, R, f, p, Declared]
    decide
  have hu : g.unambiguous = true := by decide
  exact ⟨hd, hu, by decide, parse_text_of_unambiguous hd hu⟩

end Formula

end Refutation
