import Mathlib.Data.Finset.Card
import Refutation.Proofs.Pattern.Filling

/-!
# Formulas that solve bindings

The bindings found by unification bind variables to patterns. `Solves ρ s` says that the formulas
that `ρ` puts for the variables agree with the bindings `s`, where they are put for the free
variables of sealed formulas as well. Unification does not look into sealed formulas, so a variable
can be bound to a quantified formula in which it is free itself, and no formulas solve that.

Bindings involve the free variables of what a variable is bound to. If no way along them comes back
to its start, solutions are found from the ends of the ways (`Resolvable.exists_solves`). If one
does, formulas that solve the bindings would have to become smaller and smaller along it
(`Solves.resolvable`).

* `Formula.unifiesWith_justified_iff`: **that two formulas unify means that some instances of them
  are equal up to types exactly if the bindings found can be resolved**, and it always does if
  their quantified parts are closed.
* `Formula.unifiesWith_unjustified`: the variable `x` unifies with `∀y. ¬x`, and no instances of the
  two are equal.
-/

namespace Refutation

open Relation (TransGen)

namespace Pattern

mutual

/-- The variables of a pattern, and the free variables of the quantified formulas sealed in it. -/
def freeVars : Pattern → List String
  | .var x => [x]
  | .node _ args => freeVarsList args
  | .sealed (.formula (.quant q n τ b)) => (Formula.quant q n τ b).freeVars
  | _ => []
termination_by structural p => p

/-- The free variables of patterns. -/
def freeVarsList : List Pattern → List String
  | [] => []
  | p :: ps => freeVars p ++ freeVarsList ps
termination_by structural ps => ps

end

theorem mem_freeVarsList {x : String} {ps : List Pattern} :
    x ∈ freeVarsList ps ↔ ∃ p ∈ ps, x ∈ p.freeVars := by
  induction ps with
  | nil => simp [freeVarsList]
  | cons p ps ih => simp [freeVarsList, ih]

/-- The instance of a pattern: formulas are put for its variables and for the free variables of the
quantified formulas sealed in it. -/
def under (ρ : String → Option Formula) (p : Pattern) : Formula :=
  p.fill (Formula.assigned ρ) fun q => (q.instantiate ρ).untyped

variable {ρ ρ' : String → Option Formula} {p q : Pattern}

theorem under_node (h : Head) (args : List Pattern) :
    (node h args).under ρ = h.formula (args.map (under ρ)) :=
  fill_node h args

theorem untyped_under (p : Pattern) : (p.under ρ).untyped = p.under ρ :=
  untyped_fill (Formula.untyped_assigned ρ) (fun _ => Formula.untyped_untyped _) p

/-- The instance of the pattern of a formula is the instance of the formula. -/
theorem under_lower (f : Formula) : f.lower.under ρ = (f.instantiate ρ).untyped :=
  Formula.fill_lower fun _ _ => rfl

/-- Bindings that agree with the formulas put for the variables make no difference. -/
theorem under_bind {σ : String → Pattern} (h : ∀ x, (σ x).under ρ = Formula.assigned ρ x)
    (p : Pattern) : (p.bind σ).under ρ = p.under ρ := by
  have hσ : (fun x => (σ x).fill (Formula.assigned ρ) fun q => (q.instantiate ρ).untyped) =
      Formula.assigned ρ := funext h
  rw [under, fill_bind, hσ, under]

/-- Only what is put for the free variables counts. -/
theorem under_congr (h : ∀ x ∈ p.freeVars, ρ x = ρ' x) : p.under ρ = p.under ρ' := by
  induction p using induct with
  | var x =>
    show Formula.assigned ρ x = Formula.assigned ρ' x
    rw [Formula.assigned, h x List.mem_cons_self, Formula.assigned]
  | node k args ih =>
    rw [under_node, under_node]
    refine congrArg k.formula (List.map_congr_left fun a ha => ih a ha fun x hx => h x ?_)
    exact mem_freeVarsList.2 ⟨a, ha, hx⟩
  | sealed e =>
    cases e with
    | formula f =>
      cases f with
      | quant q n τ b => exact congrArg Formula.untyped (Formula.instantiate_congr h)
      | _ => rfl
    | _ => rfl
  | _ => rfl

end Pattern

/-! ## Sizes -/

namespace Formula

/-- How many symbols a formula has. -/
def size : Formula → Nat
  | .var _ _ => 1
  | .const _ _ => 1
  | .app f a => f.size + a.size + 1
  | .not b => b.size + 1
  | .binary _ a b => a.size + b.size + 1
  | .quant _ _ _ b => b.size + 1

variable {ρ : String → Option Formula}

theorem size_lt_line {a : Formula} {args : List Formula} (ha : a ∈ args) :
    a.size < (line args).size := by
  induction args with
  | nil => cases ha
  | cons b args ih =>
    rw [line, size]
    rcases List.mem_cons.1 ha with rfl | ha
    · omega
    · have := ih ha
      omega

theorem line_injective : Function.Injective line := by
  intro as
  induction as with
  | nil =>
    intro bs h
    cases bs with
    | nil => rfl
    | cons b bs => cases h
  | cons a as ih =>
    intro bs h
    cases bs with
    | nil => cases h
    | cons b bs =>
      rw [line, line, Formula.app.injEq] at h
      rw [h.1, ih h.2]

/-- Below a quantifier, the same is put for the variables that it does not bind. -/
theorem assigned_update {n x : String} (h : x ≠ n) :
    assigned (Function.update ρ n none) x = assigned ρ x := by
  rw [assigned, Function.update_of_ne h, assigned]

/-- What is put for a free variable is no larger than the instance. -/
theorem size_assigned_le {f : Formula} {x : String} (hx : x ∈ f.freeVars) :
    (assigned ρ x).size ≤ (f.instantiate ρ).untyped.size := by
  induction f generalizing ρ with
  | var n τ =>
    rw [freeVars, List.mem_singleton] at hx
    rw [untyped_instantiate_var, hx]
  | const n τ => cases hx
  | app f a ihf iha =>
    rw [instantiate, untyped, size]
    rcases List.mem_append.1 hx with hx | hx
    · have := ihf (ρ := ρ) hx
      omega
    · have := iha (ρ := ρ) hx
      omega
  | not b ih =>
    rw [instantiate, untyped, size]
    have := ih (ρ := ρ) hx
    omega
  | binary op a b iha ihb =>
    rw [instantiate, untyped, size]
    rcases List.mem_append.1 hx with hx | hx
    · have := iha (ρ := ρ) hx
      omega
    · have := ihb (ρ := ρ) hx
      omega
  | quant q n τ b ih =>
    rw [instantiate, untyped, size]
    obtain ⟨hx, hne⟩ := List.mem_filter.1 hx
    have hle := ih (ρ := Function.update ρ n none) hx
    rw [assigned_update (by simpa using hne)] at hle
    omega

end Formula

theorem Head.size_lt {a : Formula} {args : List Formula} (h : Head) (ha : a ∈ args) :
    a.size < (h.formula args).size := by
  match args with
  | [b] =>
    cases List.mem_singleton.1 ha
    cases h <;> simp only [formula, Formula.size] <;> omega
  | [b, c] =>
    have hbc : a.size ≤ b.size + c.size := by
      rcases List.mem_pair.1 ha with rfl | rfl <;> omega
    cases h <;> simp only [formula, Formula.size] <;> omega
  | b :: c :: d :: args => cases h <;> exact Formula.size_lt_line ha

theorem Head.formula_inj {as bs : List Formula} (h : Head) (hlen : as.length = bs.length) :
    h.formula as = h.formula bs ↔ as = bs := by
  refine ⟨fun heq => ?_, fun heq => by rw [heq]⟩
  match as, bs with
  | [], [] => rfl
  | [a], [b] => cases h <;> simpa [formula] using heq
  | [a, a'], [b, b'] => cases h <;> simpa [formula] using heq
  | a :: a' :: a'' :: as, b :: b' :: b'' :: bs =>
    cases h <;> exact Formula.line_injective heq
  | [], _ :: _ => simp at hlen
  | _ :: _, [] => simp at hlen
  | [_], _ :: _ :: _ => simp at hlen
  | _ :: _ :: _, [_] => simp at hlen
  | [_, _], _ :: _ :: _ :: _ => simp at hlen
  | _ :: _ :: _ :: _, [_, _] => simp at hlen

/-- What is put for a free variable is smaller than the instance, the variable itself apart. -/
theorem Pattern.size_assigned_lt {ρ : String → Option Formula} {x : String} {p : Pattern}
    (hx : x ∈ p.freeVars) (hp : p ≠ .var x) : (Formula.assigned ρ x).size < (p.under ρ).size := by
  induction p using induct with
  | var y =>
    rw [freeVars, List.mem_singleton] at hx
    exact absurd (by rw [hx]) hp
  | atom a => cases hx
  | node k args ih =>
    obtain ⟨a, ha, hxa⟩ := mem_freeVarsList.1 hx
    have hle : (Formula.assigned ρ x).size ≤ (a.under ρ).size := by
      by_cases hax : a = .var x
      · rw [hax]
        exact le_rfl
      · exact (ih a ha hxa hax).le
    rw [under_node]
    exact hle.trans_lt (k.size_lt (List.mem_map_of_mem ha))
  | sealed e =>
    cases e with
    | formula f =>
      cases f with
      | quant q n τ b =>
        obtain ⟨hx, hne⟩ := List.mem_filter.1 hx
        have hle := Formula.size_assigned_le (ρ := Function.update ρ n none) hx
        rw [Formula.assigned_update (by simpa using hne)] at hle
        exact Nat.lt_succ_of_le hle
      | _ => cases hx
    | _ => cases hx
  | plain v => cases hx

/-! ## Solutions of bindings -/

namespace Bindings

/-- The formulas put for the variables agree with the bindings. -/
def Solves (ρ : String → Option Formula) (s : Bindings) : Prop :=
  ∀ x q, s.lookup x = some q → Formula.assigned ρ x = q.under ρ

/-- From a bound variable to a free variable of what it is bound to. -/
def Involves (s : Bindings) (x y : String) : Prop :=
  ∃ q, s.lookup x = some q ∧ y ∈ q.freeVars

/-- No way along the bindings, into sealed formulas too, comes back to its start. -/
def Resolvable (s : Bindings) : Prop :=
  ∀ x, ¬ TransGen s.Involves x x

variable {s : Bindings} {ρ : String → Option Formula}

/-- Rounds make no difference to formulas that solve the bindings. -/
theorem Solves.under_chase (h : Solves ρ s) (n : Nat) (p : Pattern) :
    (s.chase n p).under ρ = p.under ρ := by
  induction n generalizing p with
  | zero => rfl
  | succ n ih =>
    rw [chase_succ]
    refine Pattern.under_bind (fun x => ?_) p
    cases hx : s.lookup x with
    | none => rw [chase_var_of_lookup_none hx]; rfl
    | some q => rw [chase_succ_of_lookup hx, ih q, h x q hx]

/-- If nothing comes back, the ways along the bindings end. -/
theorem Resolvable.wellFounded (hs : s.Resolvable) : WellFounded fun y x => s.Involves x y :=
  wellFounded_of_acyclic (fun _ _ ⟨_, hq, _⟩ => mem_keys_of_lookup (by rw [hq]; simp)) hs

/-- **Bindings that can be resolved have a solution.** -/
theorem Resolvable.exists_solves (hs : s.Resolvable) : ∃ ρ, Solves ρ s := by
  classical
  -- what is put for a variable is known once it is known for those that it involves
  let F : ∀ x, (∀ y, s.Involves x y → Formula) → Formula := fun x θ =>
    (s.lookup x).elim (.var x .individual)
      (Pattern.under fun y => if h : s.Involves x y then some (θ y h) else none)
  let θ : String → Formula := hs.wellFounded.fix F
  have hθ : ∀ x q, s.lookup x = some q → θ x = q.under fun y => some (θ y) := by
    intro x q hq
    have hfix : θ x = F x fun y _ => θ y := hs.wellFounded.fix_eq F x
    rw [hfix]
    simp only [F, hq, Option.elim_some]
    exact Pattern.under_congr fun y hy => dif_pos ⟨q, hq, hy⟩
  refine ⟨fun x => some (θ x), fun x q hq => ?_⟩
  show (θ x).untyped = _
  rw [hθ x q hq, Pattern.untyped_under]

/-- Along bindings with a solution, what is put for the variables becomes smaller, unless the way
goes from variable to variable only. -/
theorem Solves.size_lt_or_leads (h : Solves ρ s) {x y : String} (hxy : TransGen s.Involves x y) :
    (Formula.assigned ρ y).size < (Formula.assigned ρ x).size ∨
      (Formula.assigned ρ y).size = (Formula.assigned ρ x).size ∧ TransGen s.Leads x y := by
  have hstep : ∀ x y, s.Involves x y →
      (Formula.assigned ρ y).size < (Formula.assigned ρ x).size ∨
        (Formula.assigned ρ y).size = (Formula.assigned ρ x).size ∧ s.Leads x y := by
    rintro x y ⟨q, hq, hy⟩
    rw [h x q hq]
    by_cases hqy : q = .var y
    · subst hqy
      exact .inr ⟨rfl, _, hq, List.mem_cons_self⟩
    · exact .inl (Pattern.size_assigned_lt hy hqy)
  induction hxy with
  | single hxy =>
    rcases hstep _ _ hxy with hlt | ⟨heq, hleads⟩
    · exact .inl hlt
    · exact .inr ⟨heq, .single hleads⟩
  | tail _ hyz ih =>
    rcases hstep _ _ hyz with hlt | ⟨heq, hleads⟩ <;> rcases ih with hlt' | ⟨heq', hleads'⟩
    · exact .inl (by omega)
    · exact .inl (by omega)
    · exact .inl (by omega)
    · exact .inr ⟨by omega, .tail hleads' hleads⟩

/-- **Acyclic bindings that have a solution can be resolved.** -/
theorem Solves.resolvable (h : Solves ρ s) (hs : s.Acyclic) : s.Resolvable := by
  intro x hx
  rcases h.size_lt_or_leads hx with hlt | ⟨-, hleads⟩
  · omega
  · exact hs x hleads

end Bindings

open Bindings

variable {ρ : String → Option Formula} {eqs : List Equation} {new : Bindings}

/-- What makes the instances of the sides of all equations equal solves the bindings found. -/
theorem Solved.assigned_eq (h : Solved eqs new) (hρ : ∀ e ∈ eqs, e.1.under ρ = e.2.under ρ) :
    ∀ b ∈ new, Formula.assigned ρ b.1 = b.2.under ρ := by
  induction h with
  | nil => intro b hb; cases hb
  | drop h ih => exact ih (List.forall_mem_cons.1 hρ).2
  | @bind e x t eqs new he hx h ih =>
    obtain ⟨heq, hrest⟩ := List.forall_mem_cons.1 hρ
    have hxt : Formula.assigned ρ x = t.under ρ := by
      rcases he with rfl | rfl
      · exact heq
      · exact heq.symm
    have helim : ∀ p : Pattern,
        (p.bind fun y => if y = x then t else .var y).under ρ = p.under ρ := by
      refine Pattern.under_bind fun y => ?_
      by_cases hy : y = x
      · rw [if_pos hy, hy, hxt]
      · rw [if_neg hy]
        rfl
    refine List.forall_mem_cons.2 ⟨hxt, ih ?_⟩
    simpa only [Equation.eliminate, List.forall_mem_map, helim] using hrest
  | @split k as bs eqs new hlen h ih =>
    obtain ⟨heq, hrest⟩ := List.forall_mem_cons.1 hρ
    rw [Pattern.under_node, Pattern.under_node, k.formula_inj (by simpa using hlen)] at heq
    exact ih (List.forall_mem_append.2 ⟨(forall_mem_zip hlen).2 heq, hrest⟩)

/-- **Formulas that unify have instances that are equal up to types exactly if the bindings found
can be resolved.** -/
theorem Formula.instances_agree_iff_resolvable {f g : Formula} {r : Bindings}
    (hr : unify f.lower g.lower [] = some r) :
    (∃ ρ : String → Option Formula, (f.instantiate ρ).untyped = (g.instantiate ρ).untyped) ↔
      r.Resolvable := by
  rw [unify_eq_unifyAll] at hr
  constructor
  · rintro ⟨ρ, hρ⟩
    obtain ⟨-, new, rfl, hsolved⟩ := solved_of_unifyAll hr
    have hsides : ∀ e ∈ [(f.lower, g.lower)], e.1.under ρ = e.2.under ρ := by
      intro e he
      rw [List.mem_singleton.1 he, Pattern.under_lower, Pattern.under_lower, hρ]
    have hsolves : Solves ρ r := by
      intro x q hq
      obtain ⟨l₁, l₂, rfl, -⟩ := List.lookup_eq_some_iff.1 hq
      exact hsolved.assigned_eq hsides (x, q) (by simp)
    exact hsolves.resolvable (map_apply_eq_of_unifyAll acyclic_nil hr).2.acyclic
  · intro hres
    obtain ⟨ρ, hρ⟩ := hres.exists_solves
    have heq : r.apply f.lower = r.apply g.lower :=
      List.head_eq_of_cons_eq (map_apply_eq_of_unifyAll acyclic_nil hr).1
    refine ⟨ρ, ?_⟩
    rw [← Pattern.under_lower, ← Pattern.under_lower, ← hρ.under_chase r.length f.lower,
      ← hρ.under_chase r.length g.lower]
    exact congrArg (Pattern.under ρ) heq

/-- **That two formulas unify means that some instances of them are equal up to types exactly if
the bindings found can be resolved.** It always does if the quantified parts are closed. -/
theorem Formula.unifiesWith_justified_iff (f g : Formula) :
    ((f.unifiesWith g = true →
        ∃ ρ : String → Option Formula, (f.instantiate ρ).untyped = (g.instantiate ρ).untyped) ↔
      ∀ r, unify f.lower g.lower [] = some r → r.Resolvable) ∧
    ((∀ q ∈ f.seals ++ g.seals, q.freeVars = []) → f.unifiesWith g = true →
      ∃ ρ : String → Option Formula, (f.instantiate ρ).untyped = (g.instantiate ρ).untyped) := by
  have hunify : f.unifiesWith g = true ↔ ∃ r, unify f.lower g.lower [] = some r :=
    Option.isSome_iff_exists
  refine ⟨⟨fun h r hr => ?_, fun h hfg => ?_⟩, fun hq => ?_⟩
  · exact (instances_agree_iff_resolvable hr).1 (h (hunify.2 ⟨r, hr⟩))
  · obtain ⟨r, hr⟩ := hunify.1 hfg
    exact (instances_agree_iff_resolvable hr).2 (h r hr)
  · obtain ⟨hf, hg⟩ := List.forall_mem_append.1 hq
    exact exists_instances_agree hf hg

/-- The variable `x` unifies with `∀y. ¬x`, and no instances of the two are equal: what is put for
`x` would stand in itself. -/
theorem Formula.unifiesWith_unjustified :
    let x : Formula := .var "x" .truth
    let g : Formula := .all "y" .individual (.not x)
    x.unifiesWith g = true ∧
      ¬ ∃ ρ : String → Option Formula, (x.instantiate ρ).untyped = (g.instantiate ρ).untyped := by
  intro x g
  have hr : unify x.lower g.lower [] = some [("x", g.lower)] := by
    unfold x g
    cbv
  refine ⟨by rw [unifiesWith, unifiable, hr]; rfl, ?_⟩
  rw [instances_agree_iff_resolvable hr]
  intro hres
  exact hres "x" (.single ⟨g.lower, rfl, by decide⟩)

end Refutation
