import Refutation.Proofs.Attempt.Ledger
import Refutation.Proofs.Attempt.WitnessTable
import Refutation.Proofs.Formula.Spelling

/-!
# What a run is made of

A witness is minted for a name, the one that the formula it is minted for binds (`MintedFor`). Under
both policies the table tells this name: under the name policy it is the key, under the occurrence
policy the key is a text from which it can be read. All formulas of a run are instances of
subformulas of the goal, or of their negations, by such witnesses (`Traced`).

* `MintedFor.unique`: **a witness stands for one name and has one type.**
* `kept_traced`: **every expansion keeps to instances of subformulas.**
-/

namespace Refutation

open Formula (Fills)

/-- The constant stands in the table as the witness for a formula that binds this name. -/
def MintedFor (p : WitnessPolicy) (ws : Table) (x c : String) (τ : Ty) : Prop :=
  ∃ (f : Formula) (path : List String) (σ : Ty), f.binding? = some (x, σ) ∧
    (p = .byOccurrence → f.Named) ∧ ws.lookup (p.key (some x) f.text path) = some (.const c τ)

/-- The formula is an instance of a subformula of the goal, or of the negation of one, by witnesses
for the names of its scope. -/
def Traced (p : WitnessPolicy) (goal : Formula) (ws : Table) (f : Formula) : Prop :=
  (p = .byOccurrence → f.Named) ∧ ∃ s ∈ goal.subformulas, ∃ k ρ,
    s.formula.SignedBy k ∧ Fills (MintedFor p ws) s.scope ρ ∧ f = k.instantiate ρ

variable {p : WitnessPolicy} {goal f g : Formula} {ws ws' : Table} {s : Supply} {x y c : String}
  {σ τ : Ty}

/-! ## Whom a witness stands for -/

theorem MintedFor.mono (h : MintedFor p ws x c τ) (hws : ws <+: ws') : MintedFor p ws' x c τ := by
  obtain ⟨f, path, σ, hb, hn, hlook⟩ := h
  exact ⟨f, path, σ, hb, hn, hws.lookup_eq_some hlook⟩

/-- **A witness stands for one name, and has one type.** -/
theorem MintedFor.unique (hs : s.Numbered) (h : MintedFor p s.witnesses x c τ)
    (h' : MintedFor p s.witnesses y c σ) : x = y ∧ τ = σ := by
  obtain ⟨f, path, τ', hb, hn, hlook⟩ := h
  obtain ⟨g, path', σ', hb', hn', hlook'⟩ := h'
  have hkey := hs.key_eq hlook hlook'
  rw [hkey, hlook'] at hlook
  refine ⟨?_, (Formula.const.inj (Option.some.inj hlook)).2.symm⟩
  by_cases hp : p = .byOccurrence
  · subst hp
    -- the key tells the spelling, and this what is bound
    obtain ⟨hspell, -⟩ := ((hn rfl).key_eq_iff (hn' rfl)).1 hkey
    rw [← Formula.binding?_spelled, hspell, Formula.binding?_spelled, hb'] at hb
    exact (Prod.mk.inj (Option.some.inj hb)).1.symm
  · simpa [WitnessPolicy.key, hp] using hkey

theorem MintedFor.exists_name (hs : s.Numbered) (h : MintedFor p s.witnesses x c τ) :
    ∃ k : Nat, c = Supply.witnessName (k + 1) := by
  obtain ⟨f, path, σ, -, -, hlook⟩ := h
  obtain ⟨i, υ, -, -, hc⟩ := hs.const_of_lookup hlook
  exact ⟨i, (Formula.const.inj hc).1⟩

open scoped Classical in
/-- So the table can be read the other way round. -/
theorem exists_origin (p : WitnessPolicy) (hs : s.Numbered) :
    ∃ o : String → Option (String × Ty),
      (∀ x c τ, MintedFor p s.witnesses x c τ → o c = some (x, τ)) ∧
        ∀ c, (∀ k : Nat, Supply.witnessName (k + 1) ≠ c) → o c = none := by
  let o : String → Option (String × Ty) := fun c =>
    if h : ∃ v : String × Ty, MintedFor p s.witnesses v.1 c v.2 then some h.choose else none
  refine ⟨o, fun x c τ h => ?_, fun c hc => ?_⟩
  · have hex : ∃ v : String × Ty, MintedFor p s.witnesses v.1 c v.2 := ⟨(x, τ), h⟩
    obtain ⟨hx, hτ⟩ := MintedFor.unique hs hex.choose_spec h
    have ho : o c = some hex.choose := dif_pos hex
    rw [ho]
    exact congrArg some (Prod.ext hx hτ)
  · refine dif_neg ?_
    rintro ⟨v, hv⟩
    obtain ⟨k, rfl⟩ := hv.exists_name hs
    exact hc k rfl

/-! ## Instances of subformulas -/

theorem Supply.isName_witnessName (i : Nat) : Reading.isName (witnessName i) := by
  rw [Reading.isName_iff]
  refine ⟨'c', Nat.toDigits 10 i, toList_witnessName i, rfl, fun d hd => ?_⟩
  have hdigit := Nat.isDigit_of_mem_toDigits (by omega) (by omega) hd
  simp [Reading.isNameChar, Char.isAlphanum, hdigit]

theorem Formula.Named.subst_witness (hf : f.Named) (x : String) (i : Nat) (τ : Ty) :
    (f.subst x (.const (Supply.witnessName i) τ)).Named where
  constants n hn := by
    rcases mem_constants_subst_const hn with rfl | hn
    · exact Supply.isName_witnessName i
    · exact hf.constants n hn
  varNames n hn := hf.varNames n (mem_varNames_subst_const hn)
  binders := by rw [binders_subst_const]; exact hf.binders

/-- **Every expansion keeps to instances of subformulas**, by witnesses for the names that are
bound around them. -/
theorem kept_traced (p : WitnessPolicy) (goal : Formula) : Kept p (Traced p goal) where
  mono hws hf := by
    obtain ⟨hn, r, hr, k, ρ, hk, hρ, hf⟩ := hf
    exact ⟨hn, r, hr, k, ρ, hk, hρ.mono fun x c τ h => h.mono hws, hf⟩
  hereditary := by
    intro s hs f w path hf hw ps hps g hg
    rcases Formula.mem_parts hps hg with rfl | ⟨hnone, hgf⟩ | ⟨x, τ, b, hb, hbf, rfl⟩
    · exact hf
    · -- a connective: the pieces stand in the same scope
      obtain ⟨hn, r, hr, k, ρ, hk, hρ, rfl⟩ := hf
      refine ⟨fun hp => (hn hp).of_mem_pieces hgf, ?_⟩
      rw [Formula.binding?_instantiate hρ.constants] at hnone
      obtain ⟨k', hk', rfl⟩ := Formula.exists_piece_of_binding?_none hρ.constants hnone hgf
      obtain ⟨r', hr', hscope, hsign⟩ := Formula.pieced_of_mem_pieces r.scope hk hk'
      have hsame : r'.scope = r.scope := by rw [hscope, Formula.innerScope, hnone]; rfl
      exact ⟨r', Formula.mem_subformulasIn_trans hr hr', k', ρ, hsign, hsame ▸ hρ, rfl⟩
    · -- a quantifier: the scope of the body has one name more, and the witness stands for it
      have hlook := hw x τ hb
      obtain ⟨i, σ, -, rfl⟩ := hs.const_of_witnessed hw (by rw [hb]; simp)
      have hminted : MintedFor p s.witnesses x (Supply.witnessName (i + 1)) σ :=
        ⟨f, path, τ, hb, hf.1, hlook⟩
      obtain ⟨hn, r, hr, k, ρ, hk, hρ, rfl⟩ := hf
      refine ⟨fun hp => ((hn hp).of_mem_pieces hbf).subst_witness x (i + 1) σ, ?_⟩
      rw [Formula.binding?_instantiate hρ.constants] at hb
      obtain ⟨k', hk', rfl⟩ := Formula.exists_piece_of_binding?_some hρ.constants hb hbf
      obtain ⟨r', hr', hscope, hsign⟩ := Formula.pieced_of_mem_pieces r.scope hk hk'
      have hmore : r'.scope = x :: r.scope := by rw [hscope, Formula.innerScope, hb]; rfl
      have hfill := hρ.update hminted
      rw [← hmore] at hfill
      refine ⟨r', Formula.mem_subformulasIn_trans hr hr', k', _, hsign, hfill, ?_⟩
      rw [← Formula.instantiate_eq_subst hfill.constants (Function.update_self ..) k',
        Function.update_idem]

theorem traced_negate (h : p = .byOccurrence → goal.Named) (ws : Table) :
    Traced p goal ws goal.negate := by
  have hnil : Fills (MintedFor p ws) [] fun _ => none :=
    ⟨fun x hx => absurd hx List.not_mem_nil, fun _ _ => rfl⟩
  have hself : ∀ k : Formula, k = k.instantiate fun _ => none := fun k =>
    (Formula.instantiate_none (fun _ => rfl) k).symm
  refine ⟨fun hp => ?_, ?_⟩
  · refine (Formula.negate_iff (fun k => ?_) goal).2 (h hp)
    exact ⟨fun hk => hk.not_body, fun hk => ⟨hk.constants, hk.varNames, hk.binders⟩⟩
  · cases goal with
    | not b =>
      refine ⟨⟨b, []⟩, ?_, b, _, Or.inl rfl, hnil, hself b⟩
      exact List.mem_cons_of_mem _ (Formula.self_mem_subformulasIn b [])
    | _ => exact ⟨_, Formula.self_mem_subformulasIn _ [], _, _, Or.inr rfl, hnil, hself _⟩

end Refutation
