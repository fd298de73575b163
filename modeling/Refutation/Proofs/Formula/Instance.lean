import Mathlib.Logic.Function.Basic
import Refutation.Proofs.Formula.Names

/-!
# Instances of the parts of a formula

The formulas that expansions make of a formula are instances of its parts.
`Formula.Descends` takes a formula apart, with bound variables left free, and
`Formula.instantiate` puts formulas, here constants, for all of them at once, where quantifiers
protect what they bind.

* `Formula.instantiate_single`: for one variable that is substitution.
* `Formula.subst_instantiate`: **what is put in last can be put in by itself**, if its variable is
  not free in the rest.
* `Formula.Descends.eq_of_binding?`: **if no two quantifiers bind the same name, a part is known by
  the name it binds.**
-/

namespace Refutation

namespace Formula

/-- Put formulas for several variables at once; a quantifier protects what it binds, and may
capture variables of what is put in. -/
def instantiate (ρ : String → Option Formula) : Formula → Formula
  | .var n τ => (ρ n).getD (.var n τ)
  | .const n τ => .const n τ
  | .app f a => .app (f.instantiate ρ) (a.instantiate ρ)
  | .not b => .not (b.instantiate ρ)
  | .binary op a b => .binary op (a.instantiate ρ) (b.instantiate ρ)
  | .quant q n τ b => .quant q n τ (b.instantiate (Function.update ρ n none))

/-- Only constants are put for variables. -/
def Constants (ρ : String → Option Formula) : Prop :=
  ∀ n w, ρ n = some w → ∃ c τ, w = .const c τ

variable {f g w : Formula} {x : String} {ρ ρ' : String → Option Formula}

theorem Constants.update (h : Constants ρ) (x : String) :
    Constants (Function.update ρ x none) := by
  intro n w hw
  by_cases hn : n = x
  · subst hn; simp at hw
  · rw [Function.update_of_ne hn] at hw; exact h n w hw

/-- With nothing to put in, nothing changes. -/
theorem instantiate_none (h : ∀ n, ρ n = none) (f : Formula) : f.instantiate ρ = f := by
  induction f generalizing ρ with
  | var n τ => rw [instantiate, h]; rfl
  | const n τ => rfl
  | app f a ihf iha => rw [instantiate, ihf h, iha h]
  | not b ih => rw [instantiate, ih h]
  | binary op a b iha ihb => rw [instantiate, iha h, ihb h]
  | quant q n τ b ih =>
    rw [instantiate, ih]
    intro m
    by_cases hm : m = n
    · subst hm; simp
    · rw [Function.update_of_ne hm]; exact h m

/-- Only what is put for the free variables matters. -/
theorem instantiate_congr (h : ∀ n ∈ f.freeVars, ρ n = ρ' n) :
    f.instantiate ρ = f.instantiate ρ' := by
  induction f generalizing ρ ρ' with
  | var n τ => rw [instantiate, instantiate, h n List.mem_cons_self]
  | const n τ => rfl
  | app f a ihf iha =>
    simp only [freeVars, List.forall_mem_append] at h
    rw [instantiate, instantiate, ihf h.1, iha h.2]
  | not b ih => rw [instantiate, instantiate, ih h]
  | binary op a b iha ihb =>
    simp only [freeVars, List.forall_mem_append] at h
    rw [instantiate, instantiate, iha h.1, ihb h.2]
  | quant q n τ b ih =>
    rw [instantiate, instantiate, ih]
    intro m hm
    by_cases hmn : m = n
    · subst hmn; simp
    · rw [Function.update_of_ne hmn, Function.update_of_ne hmn]
      exact h m (List.mem_filter.2 ⟨hm, by simpa using hmn⟩)

/-- Putting a formula for one variable is substitution. -/
theorem instantiate_single (x : String) (w f : Formula) :
    f.instantiate (Function.update (fun _ => none) x (some w)) = f.subst x w := by
  induction f with
  | var n τ =>
    by_cases hn : n = x
    · subst hn; simp [instantiate, subst]
    · simp [instantiate, subst, hn]
  | const n τ => rfl
  | app f a ihf iha => rw [instantiate, subst, ihf, iha]
  | not b ih => rw [instantiate, subst, ih]
  | binary op a b iha ihb => rw [instantiate, subst, iha, ihb]
  | quant q n τ b ih =>
    by_cases hn : n = x
    · subst hn
      rw [instantiate, subst, if_pos rfl, Function.update_idem, instantiate_none]
      intro m
      by_cases hm : m = n <;> simp [hm]
    · -- nothing was put for `n` anyway
      have hkeep : Function.update (Function.update (fun _ => none) x (some w)) n none =
          Function.update (fun _ : String => (none : Option Formula)) x (some w) := by
        refine Function.update_eq_self_iff.2 ?_
        rw [Function.update_of_ne hn]
      rw [instantiate, subst, if_neg hn, hkeep, ih]

/-- **Where the variable is not free, substitution changes nothing.** -/
theorem subst_of_not_free (hx : x ∉ f.freeVars) (r : Formula) : f.subst x r = f := by
  have hsame : ∀ n ∈ f.freeVars, Function.update (fun _ => none) x (some r) n = none := by
    intro n hn
    have hne : n ≠ x := fun h => hx (h ▸ hn)
    rw [Function.update_of_ne hne]
  rw [← instantiate_single, instantiate_congr hsame, instantiate_none fun _ => rfl]

/-- **What is put in last can be put in by itself**, if its variable is not free in what was put in
before. Quantifiers may capture what is put in: they do so either way. -/
theorem subst_instantiate (hx : ρ x = none) (hfree : ∀ n v, ρ n = some v → x ∉ v.freeVars)
    (w f : Formula) :
    (f.instantiate ρ).subst x w = f.instantiate (Function.update ρ x (some w)) := by
  induction f generalizing ρ with
  | var n τ =>
    by_cases hn : n = x
    · subst hn; simp [instantiate, subst, hx]
    · rw [instantiate, instantiate, Function.update_of_ne hn]
      cases hc : ρ n with
      | none => simp [subst, hn]
      | some v => exact subst_of_not_free (hfree n v hc) w
  | const n τ => rfl
  | app f a ihf iha => rw [instantiate, subst, ihf hx hfree, iha hx hfree, instantiate]
  | not b ih => rw [instantiate, subst, ih hx hfree, instantiate]
  | binary op a b iha ihb => rw [instantiate, subst, iha hx hfree, ihb hx hfree, instantiate]
  | quant q n τ b ih =>
    by_cases hn : n = x
    · -- the quantifier protects `x`, so both sides leave it alone
      subst hn
      rw [instantiate, subst, if_pos rfl, instantiate, Function.update_idem]
    · have hx' : Function.update ρ n none x = none := by
        rw [Function.update_of_ne (Ne.symm hn)]; exact hx
      have hfree' : ∀ m v, Function.update ρ n none m = some v → x ∉ v.freeVars := by
        intro m v hv
        by_cases hm : m = n
        · subst hm; simp at hv
        · rw [Function.update_of_ne hm] at hv
          exact hfree m v hv
      rw [instantiate, subst, if_neg hn, ih hx' hfree', instantiate, Function.update_comm hn]

/-- Putting in the last constant by itself gives the same. -/
theorem instantiate_eq_subst (hρ : Constants ρ) (hx : ρ x = some w) (f : Formula) :
    (f.instantiate (Function.update ρ x none)).subst x w = f.instantiate ρ := by
  have hfree : ∀ n v, Function.update ρ x none n = some v → x ∉ v.freeVars := by
    intro n v hv
    obtain ⟨c, τ, rfl⟩ := hρ.update x n v hv
    exact List.not_mem_nil
  rw [subst_instantiate (Function.update_self ..) hfree, Function.update_idem, ← hx,
    Function.update_eq_self]

end Formula

namespace Formula

variable {xs : List String} {ρ : String → Option Formula} {M N : String → String → Ty → Prop}

/-- A constant is put for every name of the scope, one that stands for this name, and none for
others. -/
structure Fills (M : String → String → Ty → Prop) (xs : List String)
    (ρ : String → Option Formula) : Prop where
  inside : ∀ x ∈ xs, ∃ c τ, ρ x = some (.const c τ) ∧ M x c τ
  outside : ∀ x ∉ xs, ρ x = none

theorem Fills.stands (h : Fills M xs ρ) {x : String} {w : Formula}
    (hx : ρ x = some w) : ∃ c τ, w = .const c τ ∧ M x c τ := by
  by_cases hmem : x ∈ xs
  · obtain ⟨c, τ, hc, hM⟩ := h.inside x hmem
    rw [hc] at hx
    exact ⟨c, τ, (Option.some.inj hx).symm, hM⟩
  · rw [h.outside x hmem] at hx
    cases hx

theorem Fills.constants (h : Fills M xs ρ) : Constants ρ := by
  intro x w hx
  obtain ⟨c, τ, hw, -⟩ := h.stands hx
  exact ⟨c, τ, hw⟩

theorem Fills.mono (h : Fills M xs ρ)
    (hMN : ∀ x c τ, M x c τ → N x c τ) : Fills N xs ρ := by
  refine ⟨fun x hx => ?_, h.outside⟩
  obtain ⟨c, τ, hc, hM⟩ := h.inside x hx
  exact ⟨c, τ, hc, hMN x c τ hM⟩

/-- One name more in the scope. -/
theorem Fills.update {x c : String} {τ : Ty} (h : Fills M xs ρ) (hM : M x c τ) :
    Fills M (x :: xs) (Function.update ρ x (some (.const c τ))) := by
  refine ⟨fun y hy => ?_, fun y hy => ?_⟩
  · by_cases hyx : y = x
    · subst hyx
      exact ⟨c, τ, Function.update_self .., hM⟩
    · rw [Function.update_of_ne hyx]
      exact h.inside y ((List.mem_cons.1 hy).resolve_left hyx)
  · obtain ⟨hyx, hy⟩ := not_or.1 (mt List.mem_cons.2 hy)
    rw [Function.update_of_ne hyx]
    exact h.outside y hy

end Formula

/-- The shape of an instance. -/
def Shape.instantiate (ρ : String → Option Formula) : Shape → Shape
  | .literal => .literal
  | .alpha ps => .alpha (ps.map (Formula.instantiate ρ))
  | .beta a b => .beta (a.instantiate ρ) (b.instantiate ρ)
  | .gamma keep x τ b => .gamma keep x τ (b.instantiate (Function.update ρ x none))
  | .delta x τ b => .delta x τ (b.instantiate (Function.update ρ x none))

namespace Formula

variable {f g w : Formula} {x : String} {τ : Ty} {ρ : String → Option Formula}

/-- Instances have the shape of what they are instances of. -/
theorem shape_instantiate (hρ : Constants ρ) (f : Formula) :
    (f.instantiate ρ).shape = f.shape.instantiate ρ := by
  have hvar : ∀ n τ, (∃ m σ, instantiate ρ (.var n τ) = .var m σ) ∨
      ∃ m σ, instantiate ρ (.var n τ) = .const m σ := by
    intro n τ
    rw [instantiate]
    cases hc : ρ n with
    | none => exact Or.inl ⟨n, τ, rfl⟩
    | some v =>
      obtain ⟨c, σ, rfl⟩ := hρ n v hc
      exact Or.inr ⟨c, σ, rfl⟩
  cases f with
  | var n τ => rcases hvar n τ with ⟨m, σ, h⟩ | ⟨m, σ, h⟩ <;> rw [h] <;> rfl
  | not a =>
    rw [instantiate]
    cases a with
    | var n τ => rcases hvar n τ with ⟨m, σ, h⟩ | ⟨m, σ, h⟩ <;> rw [h] <;> rfl
    | binary op a b => cases op <;> rfl
    | quant q n τ b => cases q <;> rfl
    | _ => rfl
  | binary op a b => cases op <;> rfl
  | quant q n τ b => cases q <;> rfl
  | _ => rfl

theorem binding?_instantiate (hρ : Constants ρ) (f : Formula) :
    (f.instantiate ρ).binding? = f.binding? := by
  unfold binding?
  rw [shape_instantiate hρ]
  cases f.shape <;> rfl

/-- The pieces of an instance, if it binds nothing, are instances of pieces. -/
theorem exists_piece_of_binding?_none (hρ : Constants ρ) (hb : f.binding? = none)
    (hg : g ∈ (f.instantiate ρ).pieces) : ∃ k ∈ f.pieces, g = k.instantiate ρ := by
  unfold binding? at hb
  unfold pieces at hg ⊢
  rw [shape_instantiate hρ] at hg
  cases hs : f.shape with
  | literal => rw [hs] at hg; cases hg
  | alpha ps =>
    rw [hs] at hg
    obtain ⟨k, hk, rfl⟩ := List.mem_map.1 hg
    exact ⟨k, hk, rfl⟩
  | beta a b =>
    rw [hs] at hg
    simp only [Shape.instantiate, Shape.pieces, List.mem_cons, List.not_mem_nil, or_false] at hg
    rcases hg with rfl | rfl
    · exact ⟨a, List.mem_cons_self, rfl⟩
    · exact ⟨b, List.mem_cons_of_mem _ List.mem_cons_self, rfl⟩
  | gamma keep x τ b => rw [hs] at hb; cases hb
  | delta x τ b => rw [hs] at hb; cases hb

/-- The piece of an instance that binds a name is an instance of a piece in which that name
is left free. -/
theorem exists_piece_of_binding?_some (hρ : Constants ρ) (hb : f.binding? = some (x, τ))
    (hg : g ∈ (f.instantiate ρ).pieces) :
    ∃ k ∈ f.pieces, g = k.instantiate (Function.update ρ x none) := by
  unfold binding? at hb
  unfold pieces at hg ⊢
  rw [shape_instantiate hρ] at hg
  cases hs : f.shape with
  | gamma keep y σ b =>
    rw [hs] at hb hg
    cases hb
    exact ⟨b, List.mem_cons_self, List.mem_singleton.1 hg⟩
  | delta y σ b =>
    rw [hs] at hb hg
    cases hb
    exact ⟨b, List.mem_cons_self, List.mem_singleton.1 hg⟩
  | _ => rw [hs] at hb; cases hb

/-! ## Parts -/

theorem binders_of_binding?_some (hb : f.binding? = some (x, τ)) :
    ∃ b, f.pieces = [b] ∧ f.binders = x :: b.binders := by
  unfold binding? shape at hb
  unfold pieces shape
  split at hb <;> cases hb <;> exact ⟨_, rfl, rfl⟩

/-- Without a bound name, the quantifiers of a formula are those of its pieces. -/
theorem binders_of_binding?_none (hb : f.binding? = none) (hg : g ∈ f.pieces) :
    f.binders = f.pieces.flatMap binders := by
  unfold binding? shape at hb
  unfold pieces shape at hg
  split at hg
  case h_5 | h_6 | h_10 | h_11 => cases hb
  case h_12 => cases hg
  all_goals simp [pieces, shape, Shape.pieces, binders]

/-- The formula that is left when a formula is taken apart, with bound variables left free. -/
inductive Descends : Formula → Formula → Prop
  | refl (f : Formula) : Descends f f
  | piece {f g k : Formula} (hg : g ∈ f.pieces) (h : Descends g k) : Descends f k

namespace Descends

variable {k : Formula}

theorem tail (h : Descends f g) (hk : k ∈ g.pieces) : Descends f k := by
  induction h with
  | refl f => exact .piece hk (.refl k)
  | piece hg _ ih => exact .piece hg (ih hk)

theorem binders_subset (h : Descends f g) : g.binders ⊆ f.binders := by
  induction h with
  | refl f => exact List.Subset.refl _
  | piece hg _ ih => exact fun y hy => binders_of_mem_pieces hg (ih hy)

theorem mem_binders (h : Descends f g) (hb : g.binding? = some (x, τ)) : x ∈ f.binders := by
  obtain ⟨b, -, hx⟩ := binders_of_binding?_some hb
  exact h.binders_subset (by rw [hx]; exact List.mem_cons_self)

/-- What lies strictly inside a formula binds other names than the formula itself. -/
theorem binding?_ne_of_mem_pieces (hn : f.binders.Nodup) (hb : f.binding? = some (x, τ))
    (hg : g ∈ f.pieces) (h : Descends g k) {σ : Ty} : k.binding? ≠ some (x, σ) := by
  intro hk
  obtain ⟨b, hpieces, hbinders⟩ := binders_of_binding?_some hb
  rw [hpieces, List.mem_singleton] at hg
  subst hg
  rw [hbinders, List.nodup_cons] at hn
  exact hn.1 (h.mem_binders hk)

/-- A list of lists without repetition has each element in one of them only. -/
theorem eq_of_mem_of_nodup_flatMap {l : List Formula} {a b : Formula}
    (hn : (l.flatMap binders).Nodup) (ha : a ∈ l) (hb : b ∈ l) (hxa : x ∈ a.binders)
    (hxb : x ∈ b.binders) : a = b := by
  induction l with
  | nil => cases ha
  | cons c l ih =>
    rw [List.flatMap_cons, List.nodup_append] at hn
    obtain ⟨-, hnl, hdis⟩ := hn
    have hflat : ∀ {d : Formula}, d ∈ l → x ∈ d.binders → x ∈ l.flatMap binders :=
      fun hd hx => List.mem_flatMap.2 ⟨_, hd, hx⟩
    rcases List.mem_cons.1 ha with rfl | hal
    · rcases List.mem_cons.1 hb with rfl | hbl
      · rfl
      · exact absurd rfl (hdis x hxa x (hflat hbl hxb))
    · rcases List.mem_cons.1 hb with rfl | hbl
      · exact absurd rfl (hdis x hxb x (hflat hal hxa))
      · exact ih hnl hal hbl

theorem nodup_of_mem_pieces (hn : f.binders.Nodup) (hg : g ∈ f.pieces) : g.binders.Nodup := by
  cases hb : f.binding? with
  | none =>
    rw [binders_of_binding?_none hb hg] at hn
    exact (List.sublist_flatten_of_mem (List.mem_map_of_mem hg)).nodup hn
  | some b =>
    obtain ⟨x, τ⟩ := b
    obtain ⟨b, hpieces, hbinders⟩ := binders_of_binding?_some hb
    rw [hpieces, List.mem_singleton] at hg
    rw [hbinders, List.nodup_cons] at hn
    rw [hg]; exact hn.2

/-- **If no two quantifiers bind the same name, a part is known by the name it binds.** -/
theorem eq_of_binding? (hn : f.binders.Nodup) (hg : Descends f g) (hk : Descends f k) {σ : Ty}
    (hgx : g.binding? = some (x, τ)) (hkx : k.binding? = some (x, σ)) : g = k := by
  induction hg with
  | refl f =>
    cases hk with
    | refl => rfl
    | piece hp h => exact absurd hkx (binding?_ne_of_mem_pieces hn hgx hp h)
  | @piece f p g hp hpg ih =>
    cases hk with
    | refl => exact absurd hgx (binding?_ne_of_mem_pieces hn hkx hp hpg)
    | @piece _ q _ hq hqk =>
      -- both parts lie in the same piece, since the pieces share no name
      have hpq : p = q := by
        cases hb : f.binding? with
        | none =>
          rw [binders_of_binding?_none hb hp] at hn
          exact eq_of_mem_of_nodup_flatMap hn hp hq (hpg.mem_binders hgx) (hqk.mem_binders hkx)
        | some b =>
          obtain ⟨b', hpieces, -⟩ := binders_of_binding?_some hb
          rw [hpieces, List.mem_singleton] at hp hq
          rw [hp, hq]
      subst hpq
      exact ih (nodup_of_mem_pieces hn hp) hqk hgx

end Descends

end Formula

end Refutation
