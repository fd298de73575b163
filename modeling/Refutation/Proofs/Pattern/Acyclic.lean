import Mathlib.Data.Finset.Card
import Mathlib.Data.List.Chain
import Refutation.Pattern.Unify

/-!
# Acyclic bindings

Bindings lead from a bound variable to the variables of its pattern. If no way along them
comes back to where it started, no way through bound variables is longer than the bindings
are many, and `Bindings.apply` follows every chain to its end.

An assignment of patterns to all variables respects bindings if it gives a bound variable
the same as its pattern.

* `Respects.bind_apply`: applying bindings makes no difference to what respects them.
* `Acyclic.lookup_of_mem_apply`: **no bound variable is left when acyclic bindings are
  applied.**
* `Acyclic.respects_ending`: so acyclic bindings are respected by the ends of their chains.
* `Acyclic.concat`: one more binding keeps bindings acyclic, if its pattern has only other
  variables and none with a binding.
-/

namespace Refutation

open Relation (TransGen)

namespace Pattern

variable {σ τ : String → Pattern}

theorem bind_var (p : Pattern) : p.bind .var = p := by
  induction p using induct with
  | node h args ih =>
    have hargs : args.map (bind .var) = args := by
      calc args.map (bind .var) = args.map id := List.map_congr_left ih
        _ = args := List.map_id args
    rw [bind, bindList_eq_map, hargs]
  | _ => rfl

/-- Only the variables of a pattern count. -/
theorem bind_congr {p : Pattern} (h : ∀ x ∈ p.vars, σ x = τ x) : p.bind σ = p.bind τ := by
  induction p using induct with
  | var x => exact h x (by simp [vars])
  | node k args ih =>
    have hargs : args.map (bind σ) = args.map (bind τ) := by
      refine List.map_congr_left fun a ha => ih a ha fun x hx => h x ?_
      rw [vars, varsList_eq_flatMap]
      exact List.mem_flatMap.2 ⟨a, ha, hx⟩
    rw [bind, bind, bindList_eq_map, bindList_eq_map, hargs]
  | _ => rfl

theorem bind_bind (σ τ : String → Pattern) (p : Pattern) :
    (p.bind σ).bind τ = p.bind fun x => (σ x).bind τ := by
  induction p using induct with
  | node h args ih =>
    have hargs : (args.map (bind σ)).map (bind τ) = args.map (bind fun x => (σ x).bind τ) := by
      rw [List.map_map]
      exact List.map_congr_left fun a ha => ih a ha
    simp only [bind, bindList_eq_map, hargs]
  | _ => rfl

end Pattern

/-- A relation that goes on from finitely many points only, and never back to where it started, comes
to an end everywhere. -/
theorem wellFounded_of_acyclic {r : String → String → Prop} {points : List String}
    (hpoints : ∀ x y, r x y → x ∈ points) (hr : ∀ x, ¬ TransGen r x x) :
    WellFounded fun y x => r x y := by
  classical
  -- the points ahead of a point; along the relation they become fewer
  let ahead : String → Finset String := fun x =>
    points.toFinset.filter (Relation.ReflTransGen r x)
  refine Subrelation.wf (r := InvImage (· < ·) fun x => (ahead x).card) ?_
    (InvImage.wf _ Nat.lt_wfRel.wf)
  intro y x hxy
  refine Finset.card_lt_card (Finset.ssubset_iff_of_subset ?_ |>.2 ⟨x, ?_, ?_⟩)
  · intro z hz
    obtain ⟨hpoint, hz⟩ := Finset.mem_filter.1 hz
    exact Finset.mem_filter.2 ⟨hpoint, .head hxy hz⟩
  · exact Finset.mem_filter.2 ⟨List.mem_toFinset.2 (hpoints x y hxy), .refl⟩
  · intro hx
    exact hr x (.head' hxy (Finset.mem_filter.1 hx).2)

namespace Bindings

/-- From a bound variable to a variable of its pattern. -/
def Leads (s : Bindings) (x y : String) : Prop :=
  ∃ q, s.lookup x = some q ∧ y ∈ q.vars

/-- No way along the bindings comes back to its start. -/
def Acyclic (s : Bindings) : Prop :=
  ∀ x, ¬ TransGen s.Leads x x

/-- A bound variable is assigned what its pattern is. -/
def Respects (T : String → Pattern) (s : Bindings) : Prop :=
  ∀ x q, s.lookup x = some q → T x = q.bind T

/-- Where the chain of a variable ends. -/
def ending (s : Bindings) (x : String) : Pattern :=
  s.apply (.var x)

variable {s : Bindings} {T : String → Pattern} {p : Pattern} {n : Nat}

theorem acyclic_nil : Acyclic [] := by
  intro x h
  obtain ⟨y, ⟨q, hq, -⟩, -⟩ := Relation.TransGen.head'_iff.1 h
  cases hq

/-! ## Rounds -/

theorem chase_succ (s : Bindings) (n : Nat) (p : Pattern) :
    s.chase (n + 1) p = p.bind fun x => s.chase (n + 1) (.var x) := rfl

theorem chase_succ_var (s : Bindings) (n : Nat) (x : String) :
    s.chase (n + 1) (.var x) = (s.lookup x).elim (.var x) (s.chase n) := by
  rw [chase, Pattern.bind]
  split <;> rename_i h <;> rw [h] <;> rfl

theorem chase_succ_of_lookup {x : String} {q : Pattern} (h : s.lookup x = some q) :
    s.chase (n + 1) (.var x) = s.chase n q := by
  rw [chase_succ_var, h]
  rfl

theorem chase_var_of_lookup_none {x : String} (h : s.lookup x = none) :
    s.chase n (.var x) = .var x := by
  cases n with
  | zero => rfl
  | succ n =>
    rw [chase_succ_var, h]
    rfl

/-- A round goes through a pattern variable by variable. -/
theorem chase_eq_bind (s : Bindings) (n : Nat) (p : Pattern) :
    s.chase n p = p.bind fun x => s.chase n (.var x) := by
  cases n with
  | zero => exact p.bind_var.symm
  | succ n => exact chase_succ s n p

theorem apply_eq_bind (s : Bindings) (p : Pattern) : s.apply p = p.bind s.ending :=
  chase_eq_bind s s.length p

/-- Rounds make no difference to an assignment that respects the bindings. -/
theorem Respects.bind_chase (h : Respects T s) (n : Nat) (p : Pattern) :
    (s.chase n p).bind T = p.bind T := by
  induction n generalizing p with
  | zero => rfl
  | succ n ih =>
    rw [chase_succ, Pattern.bind_bind]
    refine Pattern.bind_congr fun x _ => ?_
    cases hx : s.lookup x with
    | none => rw [chase_var_of_lookup_none hx]; rfl
    | some q => rw [chase_succ_of_lookup hx, ih q, h x q hx]

theorem Respects.bind_apply (h : Respects T s) (p : Pattern) : (s.apply p).bind T = p.bind T :=
  h.bind_chase s.length p

/-- A round changes nothing where no bound variable is left. -/
theorem chase_succ_eq (h : ∀ x ∈ (s.chase n p).vars, s.lookup x = none) :
    s.chase (n + 1) p = s.chase n p := by
  induction n generalizing p with
  | zero =>
    have hvar : ∀ x ∈ p.vars, s.chase 1 (.var x) = .var x :=
      fun x hx => chase_var_of_lookup_none (h x hx)
    rw [chase_succ, Pattern.bind_congr hvar, Pattern.bind_var]
    rfl
  | succ n ih =>
    rw [chase_succ s (n + 1) p, chase_succ s n p]
    refine Pattern.bind_congr fun x hx => ?_
    cases hxq : s.lookup x with
    | none => rw [chase_var_of_lookup_none hxq, chase_var_of_lookup_none hxq]
    | some q =>
      rw [chase_succ_of_lookup hxq, chase_succ_of_lookup hxq]
      refine ih fun y hy => h y ?_
      rw [chase_succ, Pattern.mem_vars_bind]
      exact ⟨x, hx, by rw [chase_succ_of_lookup hxq]; exact hy⟩

/-! ## Following chains to their ends -/

/-- A bound variable left after `n` rounds has a way of `n` bound variables behind it. -/
theorem exists_isChain {y : String} (hy : y ∈ (s.chase n p).vars) (hb : s.lookup y ≠ none) :
    ∃ x path, x ∈ p.vars ∧ path.length = n ∧ (x :: path).IsChain s.Leads ∧
      ∀ z ∈ x :: path, s.lookup z ≠ none := by
  induction n generalizing p with
  | zero => exact ⟨y, [], hy, rfl, by simp, by simpa using hb⟩
  | succ n ih =>
    rw [chase_succ, Pattern.mem_vars_bind] at hy
    obtain ⟨x, hx, hy⟩ := hy
    cases hxq : s.lookup x with
    | none =>
      rw [chase_var_of_lookup_none hxq, Pattern.vars, List.mem_singleton] at hy
      subst hy
      exact absurd hxq hb
    | some q =>
      rw [chase_succ_of_lookup hxq] at hy
      obtain ⟨z, path, hz, hlen, hchain, hbound⟩ := ih hy
      refine ⟨x, z :: path, hx, by rw [List.length_cons, hlen], ?_, ?_⟩
      · exact List.isChain_cons_cons.2 ⟨⟨q, hxq, hz⟩, hchain⟩
      · exact List.forall_mem_cons.2 ⟨by rw [hxq]; simp, hbound⟩

theorem mem_keys_of_lookup {x : String} (h : s.lookup x ≠ none) : x ∈ s.map Prod.fst := by
  obtain ⟨q, hq⟩ := Option.ne_none_iff_exists'.1 h
  obtain ⟨l₁, l₂, rfl, -⟩ := List.lookup_eq_some_iff.1 hq
  simp

/-- The ways along acyclic bindings end. -/
theorem Acyclic.wellFounded (hs : s.Acyclic) : WellFounded fun y x => s.Leads x y :=
  wellFounded_of_acyclic (fun _ _ ⟨_, hq, _⟩ => mem_keys_of_lookup (by rw [hq]; simp)) hs

/-- A way through bound variables is no longer than acyclic bindings are many. -/
theorem Acyclic.length_le (hs : s.Acyclic) {path : List String} (hpath : path.IsChain s.Leads)
    (hb : ∀ x ∈ path, s.lookup x ≠ none) : path.length ≤ s.length := by
  have hpair : path.Pairwise (TransGen s.Leads) :=
    List.isChain_iff_pairwise.1 (hpath.imp fun _ _ h => .single h)
  have hnodup : path.Nodup := by
    refine hpair.imp ?_
    intro a b hab he
    subst he
    exact hs a hab
  have hsub : path ⊆ s.map Prod.fst := fun x hx => mem_keys_of_lookup (hb x hx)
  have hle := hnodup.length_le_of_subset hsub
  rwa [List.length_map] at hle

/-- **No bound variable is left when acyclic bindings are applied.** -/
theorem Acyclic.lookup_of_mem_apply (hs : s.Acyclic) {y : String} (hy : y ∈ (s.apply p).vars) :
    s.lookup y = none := by
  by_contra hb
  obtain ⟨x, path, -, hlen, hchain, hbound⟩ := exists_isChain hy hb
  have hle := hs.length_le hchain hbound
  rw [List.length_cons] at hle
  omega

/-- **Acyclic bindings are respected by the ends of their chains.** -/
theorem Acyclic.respects_ending (hs : s.Acyclic) : Respects s.ending s := by
  intro x q hq
  obtain ⟨m, hm⟩ : ∃ m, s.length = m + 1 := by
    refine Nat.exists_eq_succ_of_ne_zero fun h0 => ?_
    rw [List.eq_nil_of_length_eq_zero h0] at hq
    cases hq
  have hx : s.ending x = s.chase m q := by
    rw [ending, apply, hm, chase_succ_of_lookup hq]
  rw [← apply_eq_bind, apply, hm, hx]
  -- what is left after the rounds from `x` is free, so the rounds from `q` end there too
  refine (chase_succ_eq fun y hy => hs.lookup_of_mem_apply (p := .var x) ?_).symm
  rw [← hx] at hy
  exact hy

/-! ## One more binding -/

theorem lookup_concat (s : Bindings) (x y : String) (t : Pattern) :
    (s ++ [(x, t)]).lookup y = (s.lookup y).or (if y = x then some t else none) := by
  rw [List.lookup_append]
  by_cases h : y = x
  · simp [h]
  · have hb : (y == x) = false := by simpa using h
    simp [List.lookup_cons, h, hb]

/-- **One more binding, to a pattern of other variables without bindings, keeps bindings
acyclic.** -/
theorem Acyclic.concat (hs : s.Acyclic) {x : String} {t : Pattern}
    (ht : ∀ y ∈ t.vars, s.lookup y = none) (hxt : x ∉ t.vars) : Acyclic (s ++ [(x, t)]) := by
  -- a variable of `t` has no binding, so nothing goes on from it
  have hend : ∀ y ∈ t.vars, ∀ z, ¬ Leads (s ++ [(x, t)]) y z := by
    rintro y hy z ⟨q, hq, -⟩
    have hyx : y ≠ x := fun h => hxt (h ▸ hy)
    rw [lookup_concat, ht y hy, if_neg hyx] at hq
    cases hq
  have hstep : ∀ y z, Leads (s ++ [(x, t)]) y z → s.Leads y z ∨ z ∈ t.vars := by
    rintro y z ⟨q, hq, hz⟩
    rw [lookup_concat] at hq
    cases hy : s.lookup y with
    | some q' => rw [hy] at hq; cases hq; exact Or.inl ⟨q, hy, hz⟩
    | none =>
      rw [hy] at hq
      by_cases hyx : y = x
      · rw [if_pos hyx] at hq; cases hq; exact Or.inr hz
      · rw [if_neg hyx] at hq; cases hq
  -- a way that can be continued uses the old bindings only
  have hold : ∀ y z, TransGen (Leads (s ++ [(x, t)])) y z →
      (∃ w, Leads (s ++ [(x, t)]) z w) → TransGen s.Leads y z := by
    rintro y z hyz ⟨w, hw⟩
    induction hyz using Relation.TransGen.head_induction_on with
    | single h =>
      rcases hstep _ _ h with h | h
      · exact .single h
      · exact absurd hw (hend _ h w)
    | @head y u h huz ih =>
      rcases hstep _ _ h with h | h
      · exact .head h ih
      · obtain ⟨v, hv, -⟩ := Relation.TransGen.head'_iff.1 huz
        exact absurd hv (hend _ h v)
  intro y hy
  obtain ⟨w, hw, -⟩ := Relation.TransGen.head'_iff.1 hy
  exact hs y (hold y y hy ⟨w, hw⟩)

end Bindings

end Refutation
