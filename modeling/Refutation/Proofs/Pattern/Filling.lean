import Refutation.Proofs.Formula.Instance
import Refutation.Proofs.Pattern.Recast

/-!
# Patterns read back as formulas

Unification answers a question about formulas in the language of patterns. `Pattern.fill` leads
back: it takes a formula for each variable and each sealed formula of a pattern and builds up what
stands above them. Filling passes through bindings (`Pattern.fill_bind`), and the filled pattern of
a formula is an instance of it, up to types (`Formula.fill_lower`). So what makes two patterns equal
gives instances that are equal up to types, as long as the sealed formulas are closed
(`Formula.exists_instances_agree`).

In the other direction, the pattern of an instance is the pattern with patterns put for its
variables (`Formula.lower_instantiate`). Two things stand in the way of that: a quantifier, since
its formula is sealed, and a variable that is applied, since a constant in its place makes another
head.

* `Formula.unifies_iff_instances_agree`: **without quantifiers and applied variables, formulas unify
  exactly if some instances of them are equal up to types.**
-/

namespace Refutation

/-- The connective between the two arguments of a head that is no function. -/
def Head.connective : Head → Connective
  | .pred _ => .eq
  | .conn "and" => .and
  | .conn "or" => .or
  | _ => .imp

/-- Formulas lined up in one, each applied to the next ones. -/
def Formula.line : List Formula → Formula
  | [] => .const "" .individual
  | a :: args => .app a (line args)

/-- The formula that a head makes of its arguments. With a number of arguments that no formula has,
they are lined up. -/
def Head.formula : Head → List Formula → Formula
  | .fn n, [a] => .app (.const n .individual) a
  | .fn _, [f, a] => .app f a
  | _, [a] => .not a
  | h, [a, b] => .binary h.connective a b
  | _, args => .line args

theorem Connective.formula_head (op : Connective) (a b : Formula) :
    op.head.formula [a, b] = .binary op a b := by
  cases op <;> rfl

namespace Pattern

mutual

/-- The formula of a pattern, with `θ x` for each variable `x` and `κ q` for each quantified formula
`q` that is sealed in it. -/
def fill (θ : String → Formula) (κ : Formula → Formula) : Pattern → Formula
  | .var x => θ x
  | .atom n => .const n .individual
  | .node h args => h.formula (fillList θ κ args)
  | .sealed (.formula (.quant q n τ b)) => κ (.quant q n τ b)
  | _ => .const "" .individual
termination_by structural p => p

/-- The formulas of patterns. -/
def fillList (θ : String → Formula) (κ : Formula → Formula) : List Pattern → List Formula
  | [] => []
  | p :: ps => fill θ κ p :: fillList θ κ ps
termination_by structural ps => ps

end

variable {θ : String → Formula} {κ : Formula → Formula}

theorem fillList_eq_map (ps : List Pattern) : fillList θ κ ps = ps.map (fill θ κ) := by
  induction ps with
  | nil => rfl
  | cons p ps ih => rw [fillList, ih, List.map_cons]

theorem fill_node (h : Head) (args : List Pattern) :
    (node h args).fill θ κ = h.formula (args.map (fill θ κ)) := by
  rw [fill, fillList_eq_map]

/-- **Variables can be bound before a pattern is filled or while it is.** -/
theorem fill_bind (σ : String → Pattern) (p : Pattern) :
    (p.bind σ).fill θ κ = p.fill (fun x => (σ x).fill θ κ) κ := by
  induction p using induct with
  | var x => rfl
  | atom a => rfl
  | node h args ih =>
    rw [bind, bindList_eq_map, fill_node, fill_node, List.map_map]
    exact congrArg h.formula (List.map_congr_left ih)
  | sealed e =>
    cases e with
    | formula f => cases f <;> rfl
    | _ => rfl
  | plain v => rfl

end Pattern

/-! ## Filled patterns have no types -/

theorem Formula.untyped_line (args : List Formula) :
    (line args).untyped = line (args.map untyped) := by
  induction args with
  | nil => rfl
  | cons a args ih => rw [line, untyped, ih, List.map_cons, line]

theorem Head.untyped_formula (h : Head) (args : List Formula) :
    (h.formula args).untyped = h.formula (args.map Formula.untyped) := by
  match args with
  | [] => cases h <;> rfl
  | [a] => cases h <;> rfl
  | [a, b] => cases h <;> rfl
  | a :: b :: c :: args => cases h <;> exact Formula.untyped_line (a :: b :: c :: args)

/-- Filled with formulas without types, a pattern gives one without types. -/
theorem Pattern.untyped_fill {θ : String → Formula} {κ : Formula → Formula}
    (hθ : ∀ x, (θ x).untyped = θ x) (hκ : ∀ q, (κ q).untyped = κ q) (p : Pattern) :
    (p.fill θ κ).untyped = p.fill θ κ := by
  induction p using induct with
  | var x => exact hθ x
  | atom a => rfl
  | node h args ih =>
    rw [fill_node, Head.untyped_formula, List.map_map]
    exact congrArg h.formula (List.map_congr_left ih)
  | sealed e =>
    cases e with
    | formula f =>
      cases f with
      | quant q n τ b => exact hκ _
      | _ => rfl
    | _ => rfl
  | plain v => rfl

namespace Formula

variable {f g : Formula} {ρ : String → Option Formula}

/-- What is put for a variable, the variable itself if nothing is; types are forgotten. -/
def assigned (ρ : String → Option Formula) (x : String) : Formula :=
  ((ρ x).getD (.var x .individual)).untyped

theorem untyped_assigned (ρ : String → Option Formula) (x : String) :
    (assigned ρ x).untyped = assigned ρ x :=
  untyped_untyped _

theorem untyped_instantiate_var (n : String) (τ : Ty) :
    (instantiate ρ (.var n τ)).untyped = assigned ρ n := by
  unfold assigned instantiate
  cases ρ n <;> rfl

/-- **The filled pattern of a formula is an instance of it**, up to types. -/
theorem fill_lower {κ : Formula → Formula} (hκ : ∀ q ∈ f.seals, κ q = (q.instantiate ρ).untyped) :
    f.lower.fill (assigned ρ) κ = (f.instantiate ρ).untyped := by
  induction f with
  | var n τ => exact (untyped_instantiate_var n τ).symm
  | const n τ => rfl
  | app f a ihf iha =>
    have ihf := ihf fun q hq => hκ q (List.mem_append_left _ hq)
    have iha := iha fun q hq => hκ q (List.mem_append_right _ hq)
    by_cases hf : ∃ n τ, f = .const n τ
    · obtain ⟨n, τ, rfl⟩ := hf
      rw [lower_app_const, Pattern.fill_node, List.map_singleton, iha]
      rfl
    · rw [lower_app fun n τ h => hf ⟨n, τ, h⟩, Pattern.fill_node, List.map_cons, List.map_singleton,
        ihf, iha]
      rfl
  | not b ih =>
    rw [lower, Pattern.fill_node, List.map_singleton, ih hκ]
    rfl
  | binary op a b iha ihb =>
    have iha := iha fun q hq => hκ q (List.mem_append_left _ hq)
    have ihb := ihb fun q hq => hκ q (List.mem_append_right _ hq)
    rw [lower, Pattern.fill_node, List.map_cons, List.map_singleton, iha, ihb,
      Connective.formula_head]
    rfl
  | quant q n τ b ih => exact hκ _ List.mem_cons_self

/-! ## Patterns of instances -/

/-- Whether a formula is a variable. -/
def isVar : Formula → Bool
  | .var _ _ => true
  | _ => false

/-- Whether no variable is applied to an argument. -/
def isFirm : Formula → Bool
  | .var _ _ => true
  | .const _ _ => true
  | .app f a => !f.isVar && f.isFirm && a.isFirm
  | .not b => b.isFirm
  | .binary _ a b => a.isFirm && b.isFirm
  | .quant _ _ _ b => b.isFirm

theorem seals_eq_nil (hb : f.binders = []) : f.seals = [] := by
  induction f with
  | app f a ihf iha =>
    obtain ⟨hf, ha⟩ := List.append_eq_nil_iff.1 hb
    rw [seals, ihf hf, iha ha, List.append_nil]
  | not b ih => exact ih hb
  | binary op a b iha ihb =>
    obtain ⟨ha, hb⟩ := List.append_eq_nil_iff.1 hb
    rw [seals, iha ha, ihb hb, List.append_nil]
  | quant q n τ b ih => cases hb
  | _ => rfl

/-- What is no symbol has only instances that are no symbols. -/
theorem untyped_instantiate_ne_const (hv : f.isVar = false) (hc : ∀ n τ, f ≠ .const n τ) :
    ∀ n τ, (f.instantiate ρ).untyped ≠ .const n τ := by
  intro n τ h
  cases f with
  | var m σ => cases hv
  | const m σ => exact hc m σ rfl
  | _ => cases h

/-- **The pattern of an instance is the pattern with patterns put for its variables**, if there is
no quantifier and no variable is applied. -/
theorem lower_instantiate (hb : f.binders = []) (hv : f.isFirm = true) :
    (f.instantiate ρ).untyped.lower = f.lower.bind fun x => (assigned ρ x).lower := by
  induction f with
  | var n τ => rw [untyped_instantiate_var]; rfl
  | const n τ => rfl
  | app f a ihf iha =>
    obtain ⟨hbf, hba⟩ := List.append_eq_nil_iff.1 hb
    simp only [isFirm, Bool.and_eq_true, Bool.not_eq_true'] at hv
    obtain ⟨⟨hvar, hvf⟩, hva⟩ := hv
    have iha := iha hba hva
    by_cases hf : ∃ n τ, f = .const n τ
    · obtain ⟨n, τ, rfl⟩ := hf
      show Pattern.node (.fn n) [(a.instantiate ρ).untyped.lower] = .node (.fn n) [a.lower.bind _]
      rw [iha]
    · have hne : ∀ n τ, f ≠ .const n τ := fun n τ h => hf ⟨n, τ, h⟩
      rw [instantiate, untyped, lower_app (untyped_instantiate_ne_const hvar hne), lower_app hne,
        ihf hbf hvf, iha]
      rfl
  | not b ih =>
    rw [instantiate, untyped, lower, lower, ih hb hv]
    rfl
  | binary op a b iha ihb =>
    obtain ⟨hba, hbb⟩ := List.append_eq_nil_iff.1 hb
    simp only [isFirm, Bool.and_eq_true] at hv
    rw [instantiate, untyped, lower, lower, iha hba hv.1, ihb hbb hv.2]
    rfl
  | quant q n τ b ih => cases hb

/-- A closed formula is its only instance. -/
theorem instantiate_closed (h : f.freeVars = []) : f.instantiate ρ = f := by
  have hcongr : f.instantiate ρ = f.instantiate fun _ => none :=
    instantiate_congr fun n hn => by rw [h] at hn; cases hn
  rw [hcongr, instantiate_none fun _ => rfl]

/-- **If formulas unify, some instances of them are equal up to types**, where all quantified parts
are closed. -/
theorem exists_instances_agree (hf : ∀ q ∈ f.seals, q.freeVars = [])
    (hg : ∀ q ∈ g.seals, q.freeVars = []) (h : f.unifiesWith g = true) :
    ∃ ρ : String → Option Formula, (f.instantiate ρ).untyped = (g.instantiate ρ).untyped := by
  obtain ⟨T, hT⟩ := Pattern.unifiable_iff.1 h
  -- the patterns that make the two equal, read back as formulas
  let θ : String → Formula := fun x => (T x).fill (fun y => .var y .individual) untyped
  have hθ : assigned (fun x => some (θ x)) = θ := by
    funext x
    exact Pattern.untyped_fill (fun _ => rfl) untyped_untyped (T x)
  have hfill : ∀ k : Formula, (∀ q ∈ k.seals, q.freeVars = []) →
      (k.instantiate fun x => some (θ x)).untyped =
        (k.lower.bind T).fill (fun y => .var y .individual) untyped := by
    intro k hk
    have hseals : ∀ q ∈ k.seals, q.untyped = (q.instantiate fun x => some (θ x)).untyped :=
      fun q hq => by rw [instantiate_closed (hk q hq)]
    rw [Pattern.fill_bind, ← fill_lower hseals, hθ]
  exact ⟨fun x => some (θ x), by rw [hfill f hf, hfill g hg, hT]⟩

/-- **Without quantifiers and applied variables, formulas unify exactly if some instances of them
are equal up to types.** The instances put formulas for all variables at once. -/
theorem unifies_iff_instances_agree (hbf : f.binders = []) (hbg : g.binders = [])
    (hvf : f.isFirm = true) (hvg : g.isFirm = true) :
    f.unifiesWith g = true ↔
      ∃ ρ : String → Option Formula, (f.instantiate ρ).untyped = (g.instantiate ρ).untyped := by
  have hclosed : ∀ k : Formula, k.binders = [] → ∀ q ∈ k.seals, q.freeVars = [] := by
    intro k hk q hq
    rw [seals_eq_nil hk] at hq
    cases hq
  constructor
  · exact exists_instances_agree (hclosed f hbf) (hclosed g hbg)
  · rintro ⟨ρ, hρ⟩
    refine Pattern.unifiable_iff.2 ⟨fun x => (assigned ρ x).lower, ?_⟩
    rw [← lower_instantiate hbf hvf, ← lower_instantiate hbg hvg, hρ]

/-- The formulas `R(x, y)` and `R(f(y), a)` unify: with `a` for `y`, the variable `x` has to be
`f(a)`. The formulas `P(x)` and `P(f(x))` have no instances that are equal. -/
theorem unifies_iff_instances_agree_chain :
    let R : Formula := .const "R" (.fn .individual (.fn .individual .truth))
    let P : Formula := .const "P" (.fn .individual .truth)
    let F : Formula := .const "f" (.fn .individual .individual)
    let x : Formula := .var "x" .individual
    let y : Formula := .var "y" .individual
    let a : Formula := .const "a" .individual
    let f := R.applyAll [x, y]
    let g := R.applyAll [.app F y, a]
    let h := Formula.app P x
    let k := Formula.app P (.app F x)
    (f.binders = [] ∧ g.binders = [] ∧ f.isFirm = true ∧ g.isFirm = true ∧
      f.unifiesWith g = true) ∧
    (h.binders = [] ∧ k.binders = [] ∧ h.isFirm = true ∧ k.isFirm = true ∧
      ¬ ∃ ρ : String → Option Formula, (h.instantiate ρ).untyped = (k.instantiate ρ).untyped) := by
  intro R P F x y a f g h k
  refine ⟨⟨rfl, rfl, rfl, rfl, ?_⟩, rfl, rfl, rfl, rfl, ?_⟩
  · refine (unifies_iff_instances_agree rfl rfl rfl rfl).2
      ⟨fun z => if z = "x" then some (.app F a) else some a, rfl⟩
  · rw [← unifies_iff_instances_agree rfl rfl rfl rfl]
    have hno : h.unifiesWith k = false := by
      unfold h k
      cbv
    rw [hno]
    exact Bool.false_ne_true

end Formula

end Refutation
