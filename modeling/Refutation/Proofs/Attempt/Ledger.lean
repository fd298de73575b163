import Refutation.Proofs.Attempt.Reach

/-!
# Why each witness was minted

A witness is minted for a formula that stands on a leaf at that moment, under the key of
that formula. `Ledger` says this of a whole table: each entry has a formula for which it
was minted, and what is known of the formulas at hand (`Kept`) was known of it already when
only the earlier entries were there.

* `Attempt.Reachable.ledger`: **the table of every attempt that can be reached is a ledger.**
* `kept_sealed`: the formulas at hand are closed, and a witness not yet minted does not
  occur in them.
-/

namespace Refutation

namespace Supply

theorem toList_witnessName (i : Nat) : (witnessName i).toList = 'c' :: Nat.toDigits 10 i := by
  show ("c" ++ toString i).toList = _
  simp

theorem witnessName_injective {i j : Int} (hi : 0 ≤ i) (hj : 0 ≤ j)
    (h : witnessName i = witnessName j) : i = j := by
  obtain ⟨i, rfl⟩ := Int.eq_ofNat_of_zero_le hi
  obtain ⟨j, rfl⟩ := Int.eq_ofNat_of_zero_le hj
  have hd := congrArg String.toList h
  rw [toList_witnessName, toList_witnessName, List.cons.injEq] at hd
  have hn : i = j := by simpa using congrArg (fun ds => Nat.ofDigitChars 10 ds 0) hd.2
  rw [hn]

theorem witnessName_ne_empty (i : Int) : witnessName i ≠ "" := by
  intro h
  have hl := congrArg String.toList h
  simp [witnessName] at hl

/-- Names that start with another letter are not those of witnesses. -/
theorem witnessName_notMem {cs : List String} (h : ∀ n ∈ cs, n.toList.head? ≠ some 'c') (k : Nat) :
    witnessName k ∉ cs := by
  intro hk
  refine h _ hk ?_
  rw [toList_witnessName]; rfl

end Supply

/-- What is known of the formulas at hand, given the table so far: more entries do not
undo it, and expansions with the witnesses of the table keep it. -/
structure Kept (p : WitnessPolicy) (Q : Table → Formula → Prop) : Prop where
  mono : ∀ {ws ws' : Table} {f : Formula}, ws <+: ws' → Q ws f → Q ws' f
  hereditary : ∀ s : Supply, s.Numbered → Hereditary p s.witnesses (Q s.witnesses)

/-- Each witness of the table was minted for a formula that was at hand then. -/
def Ledger (p : WitnessPolicy) (Q : Table → Formula → Prop) (ws : Table) : Prop :=
  ∀ (i : Nat) k c, ws[i]? = some (k, c) → ∃ f x τ path, f.binding? = some (x, τ) ∧
    k = p.key (some x) f.text path ∧ Q (ws.take i) f

variable {p : WitnessPolicy} {Q R : Table → Formula → Prop}

theorem Kept.and (hQ : Kept p Q) (hR : Kept p R) : Kept p fun ws f => Q ws f ∧ R ws f where
  mono h hf := ⟨hQ.mono h hf.1, hR.mono h hf.2⟩
  hereditary s hs f w path hf hw ps hps g hg :=
    ⟨hQ.hereditary s hs f w path hf.1 hw ps hps g hg, hR.hereditary s hs f w path hf.2 hw ps hps g hg⟩

/-- A new entry keeps a ledger, if it stands for a formula at hand. -/
theorem Ledger.append {ws : Table} (h : Ledger p Q ws) {f w : Formula} {x : String} {τ : Ty}
    {path : List String} (hb : f.binding? = some (x, τ)) (hf : Q ws f) :
    Ledger p Q (ws ++ [(p.key (some x) f.text path, w)]) := by
  intro i k c hi
  by_cases hlt : i < ws.length
  · rw [List.getElem?_append_left hlt] at hi
    rw [List.take_append_of_le_length (by omega)]
    exact h i k c hi
  · rw [List.getElem?_append_right (by omega)] at hi
    obtain ⟨hlen, hki⟩ := List.getElem?_eq_some_iff.1 hi
    simp only [List.length_singleton, Nat.lt_one_iff] at hlen
    simp only [hlen, List.getElem_singleton, Prod.mk.injEq] at hki
    have hieq : i = ws.length := by omega
    rw [hieq, List.take_left']
    · exact ⟨f, x, τ, path, hb, hki.1.symm, hf⟩
    · rfl

namespace Attempt

variable {goal : Formula} {n : Int} {a : Attempt}

/-- What is known of the negated goal at the start is known of the root at any time. -/
theorem rootLabel_all_kept (hQ : Kept p Q) (h0 : Q [] goal.negate) (ws : Table) :
    (rootLabel goal).All (Q ws) := by
  rw [Label.all_map [goal.negate] rfl]
  intro f hf
  rw [List.mem_singleton] at hf
  rw [hf]
  exact hQ.mono List.nil_prefix h0

/-- **The table of every attempt that can be reached is a ledger.** -/
theorem Reachable.ledger (hQ : Kept p Q) (h0 : Q [] goal.negate) (h : Reachable goal n p a) :
    Ledger p Q a.supply.witnesses := by
  refine h.invariant (P := fun a => Ledger p Q a.supply.witnesses) ?_ ?_
  · intro i k c hi
    simp [Attempt.initial] at hi
  · intro a b o hr ih hadv
    cases hadv with
    | exhausted hn => exact ih
    | limit hn hl hs => exact ih
    | @applied l pre post f w m s e n detail after hn hl hs hmem hp hd hr' hx =>
      show Ledger p Q e.supply.witnesses
      rw [hx.witnesses_eq]
      obtain ⟨hcoh, -, hpol⟩ := hr.coherent
      subst hpol
      rcases Supply.draw_cases hd with ⟨-, rfl⟩ | ⟨x, τ, hb, ⟨-, rfl⟩ | ⟨-, -, rfl⟩⟩
      · exact ih
      · exact ih
      · refine ih.append hb ?_
        have hall := hcoh.grown.all_of_next? (hQ.hereditary _ hcoh.numbered)
          (rootLabel_all_kept hQ h0 _) hn
        exact hp.all_picked hall

end Attempt

/-- A closed formula in which no witness occurs that is not yet in the table. -/
structure Sealed (ws : Table) (f : Formula) : Prop where
  closed : f.freeVars = []
  fresh : ∀ j : Nat, ws.length < j → Supply.witnessName j ∉ f.constants

/-- A closed goal in which no witness occurs is sealed at the start, and so is its negation. -/
theorem sealed_negate {goal : Formula} (hclosed : goal.freeVars = [])
    (hfresh : ∀ k : Nat, 1 ≤ k → Supply.witnessName k ∉ goal.constants) : Sealed [] goal.negate := by
  have hnot : ∀ g : Formula, Sealed [] (.not g) ↔ Sealed [] g :=
    fun g => ⟨fun h => ⟨h.closed, h.fresh⟩, fun h => ⟨h.closed, h.fresh⟩⟩
  exact (Formula.negate_iff hnot goal).2 ⟨hclosed, hfresh⟩

/-- An expansion that puts a constant for the bound variable leaves no other variable free. -/
theorem freeVars_subset_of_mem_parts {f w g : Formula} {ps : List Formula}
    (hw : f.binding? ≠ none → ∃ c τ, w = .const c τ) (hps : ps ∈ f.parts w) (hg : g ∈ ps) :
    g.freeVars ⊆ f.freeVars := by
  intro y hy
  rcases Formula.mem_parts hps hg with rfl | ⟨hn, hg⟩ | ⟨x, τ, b, hb, hbf, rfl⟩
  · exact hy
  · rcases Formula.freeVars_of_mem_pieces hg hy with hy | ⟨σ, hσ⟩
    · exact hy
    · rw [hn] at hσ; cases hσ
  · obtain ⟨c, σ, rfl⟩ := hw (by rw [hb]; simp)
    rw [Formula.freeVars_subst_const, List.mem_filter] at hy
    rcases Formula.freeVars_of_mem_pieces hbf hy.1 with hy' | ⟨σ', hσ⟩
    · exact hy'
    · rw [hb] at hσ
      cases hσ
      simp at hy

/-- What takes the place of a closed formula is closed. -/
theorem freeVars_of_mem_parts {f w g : Formula} {ps : List Formula} (hf : f.freeVars = [])
    (hw : f.binding? ≠ none → ∃ c τ, w = .const c τ) (hps : ps ∈ f.parts w) (hg : g ∈ ps) :
    g.freeVars = [] := by
  have hfree := freeVars_subset_of_mem_parts hw hps hg
  rw [hf] at hfree
  exact List.subset_nil.1 hfree

theorem Supply.Numbered.const_of_witnessed {s : Supply} (hs : s.Numbered) {path : List String}
    {f w : Formula} (hw : Witnessed p s.witnesses path f w) (hb : f.binding? ≠ none) :
    ∃ (i : Nat) (τ : Ty), i < s.witnesses.length ∧ w = .const (witnessName (i + 1)) τ := by
  obtain ⟨⟨x, σ⟩, hx⟩ := Option.ne_none_iff_exists'.1 hb
  obtain ⟨i, τ, hi, -, hw⟩ := hs.const_of_lookup (hw x σ hx)
  exact ⟨i, τ, hi, hw⟩

theorem Supply.Numbered.exists_const {s : Supply} (hs : s.Numbered) {path : List String}
    {f w : Formula} (hw : Witnessed p s.witnesses path f w) (hb : f.binding? ≠ none) :
    ∃ c τ, w = .const c τ := by
  obtain ⟨i, τ, -, hwc⟩ := hs.const_of_witnessed hw hb
  exact ⟨_, τ, hwc⟩

theorem kept_sealed (p : WitnessPolicy) : Kept p Sealed where
  mono h hf := ⟨hf.closed, fun j hj => hf.fresh j (by have := h.length_le; omega)⟩
  hereditary := by
    intro s hs f w path hf hw ps hps g hg
    refine ⟨freeVars_of_mem_parts hf.closed (hs.exists_const hw) hps hg, ?_⟩
    intro j hj hmem
    rcases Formula.mem_parts hps hg with rfl | ⟨-, hgf⟩ | ⟨x, τ, b, hb, hbf, rfl⟩
    · exact hf.fresh j hj hmem
    · exact hf.fresh j hj (Formula.constants_of_mem_pieces hgf hmem)
    · obtain ⟨i, σ, hi, rfl⟩ := hs.const_of_witnessed hw (by rw [hb]; simp)
      rcases Formula.mem_constants_subst_const hmem with heq | hmem
      · have := Supply.witnessName_injective (by omega) (by omega) heq
        omega
      · exact hf.fresh j hj (Formula.constants_of_mem_pieces hbf hmem)

end Refutation
