import Refutation.Proofs.Verdict

/-!
# The ground decision procedure

Without variables and quantifiers a goal is a matter of truth tables. An assignment gives a
truth value to each atom, the same to atoms that are equal up to types. A closed tree means
that no assignment makes the negated goal true; an open leaf with nothing left to expand
is itself an assignment that does (`Assignment.ofLeaf`).

* `prove_ground`: **a ground goal that is reported valid is a tautology, and within the
  budget every tautology is reported.**
-/

namespace Refutation

/-- Truth values for atoms, the same for atoms that are equal up to types. -/
structure Assignment where
  value : Formula → Bool
  value_congr : ∀ a b, a.isAtom → b.isAtom → a.untyped = b.untyped → value a = value b

namespace Assignment

variable {f g : Formula}

/-- The truth value of a formula, by truth tables. -/
def eval (α : Assignment) : Formula → Bool
  | .not a => !α.eval a
  | .and a b => α.eval a && α.eval b
  | .or a b => α.eval a || α.eval b
  | .imp a b => !α.eval a || α.eval b
  | f => α.value f

theorem boolean (α : Assignment) : Boolean fun f => α.eval f = true := by
  refine ⟨fun a => ?_, fun a b => ?_, fun a b => ?_, fun a b => ?_⟩
  · cases h : α.eval a <;> simp [eval, h]
  · simp [eval]
  · simp [eval]
  · cases h : α.eval a <;> simp [eval, h]

/-- Ground formulas that are equal up to types have one truth value. -/
theorem eval_congr (α : Assignment) (hf : f.isGround) (hg : g.isGround)
    (h : f.untyped = g.untyped) : α.eval f = α.eval g := by
  induction f generalizing g with
  | var n τ => cases hf
  | const n τ =>
    cases g with
    | const m σ => exact α.value_congr _ _ rfl rfl h
    | _ => cases h
  | app k a =>
    cases g with
    | app k' a' => exact α.value_congr _ _ rfl rfl h
    | _ => cases h
  | not a ih =>
    cases g with
    | not b =>
      have hab : a.untyped = b.untyped := by simpa [Formula.untyped] using h
      have hb : b.isGround := hg
      rw [eval, eval, ih hf hb hab]
    | _ => cases h
  | binary op a b iha ihb =>
    cases g with
    | binary op' c d =>
      simp only [Formula.untyped, Formula.binary.injEq] at h
      obtain ⟨rfl, hac, hbd⟩ := h
      simp only [Formula.isGround, Bool.and_eq_true] at hf hg
      cases op with
      | and => rw [eval, eval, iha hf.1 hg.1 hac, ihb hf.2 hg.2 hbd]
      | or => rw [eval, eval, iha hf.1 hg.1 hac, ihb hf.2 hg.2 hbd]
      | imp => rw [eval, eval, iha hf.1 hg.1 hac, ihb hf.2 hg.2 hbd]
      | eq => exact α.value_congr _ _ rfl rfl (by simp only [Formula.untyped, hac, hbd])
    | _ => cases h
  | quant q n τ b => cases hf

/-- The assignment that makes exactly the atoms on a leaf true. -/
def ofLeaf (fs : List Formula) : Assignment where
  value a := fs.any fun b => b.untyped = a.untyped
  value_congr a b _ _ h := by rw [h]

end Assignment

/-- Expansions keep ground formulas ground. -/
theorem hereditary_isGround (p : WitnessPolicy) (ws : Table) :
    Hereditary p ws fun f => f.isGround = true := by
  intro f w path hf _ ps hps g hg
  rcases Formula.mem_parts hps hg with rfl | ⟨-, hg⟩ | ⟨x, τ, b, hb, -, -⟩
  · exact hf
  · exact Formula.isGround_of_mem_pieces hf hg
  · rw [Formula.binding?_of_isGround hf] at hb; cases hb

/-- The literals of an open leaf are true under the assignment the leaf gives. -/
theorem Assignment.eval_ofLeaf {fs : List Formula} (hg : ∀ f ∈ fs, f.isGround)
    (hc : contradiction? fs = none) (hm : ∀ f ∈ fs, f.match? = none) {f : Formula} (hf : f ∈ fs) :
    (Assignment.ofLeaf fs).eval f = true := by
  have hatom : ∀ a : Formula, a.isAtom → (ofLeaf fs).eval a = (ofLeaf fs).value a := by
    intro a ha
    cases a with
    | not b => cases ha
    | binary op b c => cases op <;> first | rfl | cases ha
    | _ => rfl
  have hclosed : ∀ k ∈ fs, k.freeVars = [] := fun k hk => Formula.freeVars_of_isGround (hg k hk)
  rcases Formula.isAtom_of_match?_none (hclosed f hf) (hm f hf) with ha | ⟨a, rfl, ha⟩
  · rw [hatom f ha]
    simp only [ofLeaf, List.any_eq_true, decide_eq_true_eq]
    exact ⟨f, hf, rfl⟩
  · have hag : a.isGround := hg (.not a) hf
    rw [eval, hatom a ha, Bool.not_eq_true']
    simp only [ofLeaf, List.any_eq_false, decide_eq_true_eq]
    intro b hb
    exact untyped_ne_of_contradiction? hclosed hc hb hf (Formula.isNot_of_isAtom ha)
      (Formula.binders_of_isGround hag)

namespace Attempt.Coherent

variable {goal : Formula} {a : Attempt}

/-- If every leaf is closed, the ground goal is true under every assignment. -/
theorem eval_of_isValid (h : a.Coherent goal) (hg : goal.isGround)
    (hv : a.verdict.isValid = true) (α : Assignment) : α.eval goal = true := by
  have hroot : (rootLabel goal).All fun f => f.isGround = true :=
    (rootLabel_all_iff fun _ => Iff.rfl).2 hg
  have hfalse : ¬ (rootLabel goal).All fun f => α.eval f = true := by
    refine h.grown.refutes (hereditary_isGround _ _) ?_ ?_ hroot (h.isValid_iff.1 hv)
    · intro f w path hf hs _ hS
      exact (α.boolean.parts (Formula.binding?_of_isGround hf) hs w).1 hS
    · intro fs hfs hc
      refine α.boolean.not_all_of_contradiction?
        (fun f hf => Formula.freeVars_of_isGround (hfs f hf)) ?_ hc
      intro p q hp hq hpq
      have hqg : q.isGround := hfs (.not q) hq
      rw [α.eval_congr (hfs p hp) hqg hpq]
  rw [rootLabel_all, α.boolean.negate, not_not] at hfalse
  exact hfalse

/-- An open leaf with nothing left to expand gives an assignment under which the ground
goal is false. -/
theorem exists_eval_false (h : a.Coherent goal) (hg : goal.isGround) (hh : a.halted = true)
    (hs : a.stepLimitReached = false) (hv : a.verdict.isValid ≠ true) :
    ∃ α : Assignment, α.eval goal = false := by
  obtain ⟨k, hk, ho⟩ := h.exists_open_leaf hv
  obtain ⟨ls, hb⟩ := Tree.exists_hasBranch hk
  obtain ⟨fs, hset, hc⟩ := h.grown.settled_of_open hk ho
  have hm := h.inert_of_halted hh hs hk ho
  have hroot : (rootLabel goal).All fun f => f.isGround = true :=
    (rootLabel_all_iff fun _ => Iff.rfl).2 hg
  have hfg := h.grown.all_of_leaf (hereditary_isGround _ _) hroot hk
  rw [Label.all_map fs hset.formulas] at hfg
  rw [hset.formulas] at hm
  have hleaf : k.All fun f => (Assignment.ofLeaf fs).eval f = true := by
    rw [Label.all_map fs hset.formulas]
    intro f hf
    exact Assignment.eval_ofLeaf hfg hc (fun g hg => hm _ (List.mem_map_of_mem hg)) hf
  have htrue := h.grown.affirms_of_hereditary (hereditary_isGround _ _) hroot hb ho hleaf (by
    intro f w path m hf hm' _ _ hS
    refine ((Assignment.ofLeaf fs).boolean.parts (Formula.binding?_of_isGround hf) ?_ w).2 hS
    intro hlit
    rw [Formula.match?_eq_none_iff.2 hlit] at hm'; cases hm')
  rw [rootLabel_all, (Assignment.ofLeaf fs).boolean.negate] at htrue
  exact ⟨Assignment.ofLeaf fs, by simpa using htrue⟩

end Attempt.Coherent

/-- **The prover decides ground goals.** For every budget and every policy, a ground goal
reported valid is true under every assignment; and if the budget was not used up, it is
reported valid exactly if it is true under every assignment. -/
theorem prove_ground (goal : Formula) (hg : goal.isGround = true) (n : Nat) (p : WitnessPolicy)
    (hp : p ∈ WitnessPolicy.known) :
    ∃ v, prove goal (.steps n) p = .ok v ∧
      (v.isValid = true → ∀ α : Assignment, α.eval goal = true) ∧
      (v.stepLimitReached = false →
        (v.isValid = true ↔ ∀ α : Assignment, α.eval goal = true)) := by
  obtain ⟨a, hr, hh, hv⟩ := prove_eq goal n hp
  obtain ⟨hcoh, -, -⟩ := hr.coherent
  refine ⟨a.verdict, hv, hcoh.eval_of_isValid hg, fun hs => ⟨hcoh.eval_of_isValid hg, fun hα => ?_⟩⟩
  by_contra hnot
  obtain ⟨α, hf⟩ := hcoh.exists_eval_false hg hh hs hnot
  rw [hα α] at hf; cases hf

/-- A conjunction of an application and an equation is found to be no tautology. -/
theorem prove_ground_conjunction :
    let a : Formula := .const "a" .individual
    let b : Formula := .const "b" .individual
    let goal : Formula := .and (.app (.const "P" (.fn .individual .truth)) a) (.eq a b)
    goal.isGround = true ∧ WitnessPolicy.byName ∈ WitnessPolicy.known ∧
      ∃ v, prove goal (.steps (20 : Nat)) .byName = .ok v ∧ v.stepLimitReached = false ∧
        v.isValid = false ∧ ¬ ∀ α : Assignment, α.eval goal = true := by
  intro a b goal
  obtain ⟨v, hv, -, hiff⟩ := prove_ground goal rfl 20 .byName (by decide)
  have hrun : (prove goal (.steps (20 : Nat)) .byName).toOption.map (fun v =>
      (v.stepLimitReached, v.isValid)) = some (false, false) := rfl
  rw [hv] at hrun
  obtain ⟨hlimit, hvalid⟩ := Prod.mk.inj (Option.some.inj hrun)
  refine ⟨rfl, by decide, v, hv, hlimit, hvalid, fun hall => ?_⟩
  have := (hiff hlimit).2 hall
  rw [hvalid] at this; cases this

end Refutation
