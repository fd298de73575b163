import Mathlib.Data.Set.Card
import Refutation.Proofs.Attempt.FreeVariables
import Refutation.Proofs.Attempt.Instances

/-!
# The subformula property

Under the name policy a name has one witness, so the witness for a free variable of a subformula
is known from the name alone: it is the one of the table, if the name is bound around the
subformula, and there is none if it is not. Every formula on the tree is a subformula of the
negated goal filled in this way, or the negation of one (`Filled`). There are only so many of
these, however long the run is.

* `kept_filled`: every expansion keeps to filled subformulas and their negations.
* `Reachable.keys_subset`: witnesses are minted for names that the goal binds.
* `Attempt.Reachable.subformula_property`: **all formulas on the tree are filled subformulas of the
  negated goal or their negations**, so the goal bounds the number of formulas and of witnesses.
-/

namespace Refutation

open Formula (Constants)

namespace Subformula

/-- What the table puts for the names of the scope. -/
def witness (ws : Table) (s : Subformula) (x : String) : Option Formula :=
  if x ∈ s.scope then ws.lookup (some x) else none

/-- The subformula with the witnesses of the table put for those of its free variables that are
bound around it. -/
def fill (ws : Table) (s : Subformula) : Formula :=
  s.formula.instantiate (s.witness ws)

/-- Every name of the scope has a witness in the table. -/
def Witnessed (ws : Table) (s : Subformula) : Prop :=
  ∀ x ∈ s.scope, ∃ c τ, ws.lookup (some x) = some (.const c τ)

variable {ws ws' : Table} {s : Subformula}

theorem Witnessed.constants (h : s.Witnessed ws) : Constants (s.witness ws) := by
  intro x w hw
  unfold witness at hw
  split at hw
  · rename_i hx
    obtain ⟨c, τ, hc⟩ := h x hx
    rw [hc] at hw
    exact ⟨c, τ, (Option.some.inj hw).symm⟩
  · cases hw

end Subformula

/-- The formula is a subformula of `root` with the witnesses of its scope put in, or the negation
of one. -/
def Filled (root : Formula) (ws : Table) (f : Formula) : Prop :=
  ∃ s ∈ root.subformulas, s.Witnessed ws ∧ (s.fill ws).SignedBy f

section

variable {root f g w : Formula} {ws ws' : Table}

/-- A signed subformula filled is what a signed formula gives when it is filled. -/
theorem Filled.exists_signed (h : Filled root ws f) :
    ∃ s ∈ root.subformulas, s.Witnessed ws ∧
      ∃ k, s.formula.SignedBy k ∧ f = k.instantiate (s.witness ws) := by
  obtain ⟨s, hs, hw, rfl | rfl⟩ := h
  · exact ⟨s, hs, hw, s.formula, Or.inl rfl, rfl⟩
  · exact ⟨s, hs, hw, .not s.formula, Or.inr rfl, rfl⟩

theorem Filled.of_signed {s : Subformula} (hs : s ∈ root.subformulas) (hw : s.Witnessed ws)
    {k : Formula} (hk : s.formula.SignedBy k) (hf : f = k.instantiate (s.witness ws)) :
    Filled root ws f := by
  refine ⟨s, hs, hw, ?_⟩
  rcases hk with rfl | rfl
  · exact Or.inl hf
  · exact Or.inr hf

/-- Under the name policy the table tells what was put in. -/
theorem filled_eq_traced (root : Formula) : Filled root = Traced .byName root := by
  funext ws f
  refine propext ⟨fun h => ?_, ?_⟩
  · obtain ⟨s, hs, hw, k, hk, rfl⟩ := h.exists_signed
    refine ⟨fun hp => absurd hp (by decide), s, hs, k, _, hk, ⟨fun x hx => ?_, fun x hx => ?_⟩, rfl⟩
    · obtain ⟨c, τ, hc⟩ := hw x hx
      refine ⟨c, τ, (if_pos hx).trans hc, .all x τ (.var x τ), [], τ, rfl, ?_, hc⟩
      exact fun hp => absurd hp (by decide)
    · exact if_neg hx
  · rintro ⟨-, s, hs, k, ρ, hk, hρ, rfl⟩
    have hlook : ∀ x ∈ s.scope, ∃ c τ, ρ x = some (.const c τ) ∧
        ws.lookup (some x) = some (.const c τ) := by
      intro x hx
      obtain ⟨c, τ, hc, _, _, _, -, -, hlook⟩ := hρ.inside x hx
      exact ⟨c, τ, hc, hlook⟩
    refine .of_signed hs (fun x hx => ?_) hk (Formula.instantiate_congr fun x _ => ?_)
    · obtain ⟨c, τ, -, hlook⟩ := hlook x hx
      exact ⟨c, τ, hlook⟩
    · unfold Subformula.witness
      by_cases hx : x ∈ s.scope
      · obtain ⟨c, τ, hc, hlook⟩ := hlook x hx
        rw [if_pos hx, hc, hlook]
      · rw [if_neg hx, hρ.outside x hx]

theorem kept_filled (root : Formula) : Kept .byName (Filled root) := by
  rw [filled_eq_traced]
  exact kept_traced .byName root

/-- A subformula in no scope is there as it is. -/
theorem Filled.of_scope_nil (h : ⟨g, []⟩ ∈ root.subformulas) (hf : g.SignedBy f) :
    Filled root ws f := by
  refine .of_signed h (fun x hx => by cases hx) hf (Formula.instantiate_none (fun x => ?_) f).symm
  exact if_neg List.not_mem_nil

/-- The goal and its negation are filled subformulas of the negation, or negations of these. -/
theorem filled_negate (goal : Formula) (ws : Table) :
    Filled goal.negate ws goal.negate ∧ Filled goal.negate ws goal := by
  refine ⟨.of_scope_nil (Formula.self_mem_subformulasIn _ _) (Or.inl rfl), ?_⟩
  cases goal with
  | not a => exact .of_scope_nil (Formula.self_mem_subformulasIn a []) (Or.inr rfl)
  | _ =>
    refine .of_scope_nil (List.mem_cons_of_mem _ (Formula.self_mem_subformulasIn _ _)) (Or.inl rfl)

/-- A filled subformula binds a name that the whole binds. -/
theorem Filled.mem_binders {x : String} {τ : Ty} (h : Filled root ws f)
    (hb : f.binding? = some (x, τ)) : x ∈ root.binders := by
  obtain ⟨s, hs, hw, k, hk, rfl⟩ := h.exists_signed
  rw [Formula.binding?_instantiate hw.constants] at hb
  obtain ⟨b, -, hbinders⟩ := Formula.binders_of_binding?_some hb
  refine Formula.binders_of_mem_subformulasIn hs ?_
  rw [← hk.binders_eq, hbinders]
  exact List.mem_cons_self

end

namespace Attempt

variable {goal : Formula} {a : Attempt} {n : Int}

/-- The formula stands on a node at some point of the run. -/
def Appears (goal : Formula) (n : Int) (p : WitnessPolicy) (f : Formula) : Prop :=
  ∃ a, Reachable goal n p a ∧ ∃ u ∈ a.root.nodes, .formula f ∈ u.label.formulas

/-- Every entry of a node is a filled subformula or the negation of one. -/
theorem Reachable.filled (h : Reachable goal n .byName a) {u : Tree} (hu : u ∈ a.root.nodes) :
    ∀ e ∈ u.label.formulas, ∃ f, e = .formula f ∧ Filled goal.negate a.supply.witnesses f := by
  have hQ := (kept_filled goal.negate).hereditary _ h.coherent.1.numbered
  obtain ⟨hneg, hgoal⟩ := filled_negate goal a.supply.witnesses
  exact (h.entries hQ hneg hgoal hu).1

/-- Witnesses are minted for names that the goal binds. -/
theorem Reachable.keys_subset (h : Reachable goal n .byName a) :
    a.supply.witnesses.map Prod.fst ⊆ goal.binders.dedup.map some := by
  have hledger := h.ledger (kept_filled goal.negate) (filled_negate goal []).1
  have hbinders : goal.negate.binders = goal.binders := by
    cases goal <;> rfl
  intro key hkey
  obtain ⟨⟨_, c⟩, he, rfl⟩ := List.mem_map.1 hkey
  obtain ⟨i, hi⟩ := List.mem_iff_getElem?.1 he
  obtain ⟨f, x, τ, path, hb, rfl, hf⟩ := hledger i _ c hi
  have hx : x ∈ goal.binders := hbinders ▸ hf.mem_binders hb
  exact List.mem_map_of_mem (List.mem_dedup.2 hx)

/-- A run mints at most one witness for each name that the goal binds. -/
theorem Reachable.minted_le_binders (h : Reachable goal n .byName a) :
    a.supply.minted ≤ goal.binders.dedup.length := by
  have hlen := (h.nodup_keys.subperm h.keys_subset).length_le
  rw [List.length_map, List.length_map] at hlen
  rw [h.coherent.1.numbered.minted]
  omega

/-- **At most twice as many formulas appear in a run as the negated goal has subformulas**, where
two subformulas differ also by what is bound around them. -/
theorem encard_appears_le (goal : Formula) (n : Int) :
    {f | Appears goal n .byName f}.encard ≤ (2 * goal.negate.subformulas.dedup.length : Nat) := by
  -- with the table at the end of the run every formula is filled in the same way
  set ws := (Attempt.initial goal (.steps n) .byName).run.attempt.supply.witnesses
  set filled := goal.negate.subformulas.dedup.map (Subformula.fill ws)
  have hlen : filled.length = goal.negate.subformulas.dedup.length := List.length_map _
  have hsub : {f | Appears goal n .byName f} ⊆ ↑(filled ++ filled.map Formula.not).toFinset := by
    rintro f ⟨a, ha, u, hu, hf⟩
    obtain ⟨f', hff, hfill⟩ := ha.filled hu _ hf
    cases hff
    obtain ⟨s, hs, -, hsign⟩ := (kept_filled _).mono ha.witnesses_prefix_run hfill
    have hmem : s.fill ws ∈ filled := List.mem_map_of_mem (List.mem_dedup.2 hs)
    rw [Finset.mem_coe, List.mem_toFinset, List.mem_append]
    rcases hsign with rfl | rfl
    · exact Or.inl hmem
    · exact Or.inr (List.mem_map_of_mem hmem)
  calc {f | Appears goal n .byName f}.encard
      ≤ (↑(filled ++ filled.map Formula.not).toFinset : Set Formula).encard :=
        Set.encard_le_encard hsub
    _ = (filled ++ filled.map Formula.not).toFinset.card := Set.encard_coe_eq_coe_finsetCard _
    _ ≤ (filled ++ filled.map Formula.not).length := by
        exact_mod_cast List.toFinset_card_le _
    _ = (2 * goal.negate.subformulas.dedup.length : Nat) := by
        rw [List.length_append, List.length_map Formula.not, hlen, two_mul]

/-- **The subformula property under the name policy.** Every formula on the tree is a subformula of
the negated goal, with the witness of the table put for each free variable that is bound around
it, or the negation of such a formula. So whatever the budget, at most twice as many formulas
appear in the run as the negated goal has subformulas, taken with their scopes, and at most one
witness is minted for each name that the goal binds. -/
theorem Reachable.subformula_property (h : Reachable goal n .byName a) :
    (∀ u ∈ a.root.nodes, ∀ e ∈ u.label.formulas, ∃ s ∈ goal.negate.subformulas,
      (∀ x ∈ s.scope, ∃ c τ, a.supply.witnesses.lookup (some x) = some (.const c τ)) ∧
      (e = .formula (s.fill a.supply.witnesses) ∨
        e = .formula (.not (s.fill a.supply.witnesses)))) ∧
    {f | Appears goal n .byName f}.encard ≤ (2 * goal.negate.subformulas.dedup.length : Nat) ∧
    a.supply.minted ≤ goal.binders.dedup.length := by
  refine ⟨fun u hu e he => ?_, encard_appears_le goal n, h.minted_le_binders⟩
  obtain ⟨f, rfl, s, hs, hw, hsign⟩ := h.filled hu e he
  refine ⟨s, hs, hw, ?_⟩
  rcases hsign with rfl | rfl
  · exact Or.inl rfl
  · exact Or.inr rfl

/-- `x` is free on the left and bound twice on the right, once inside the scope of the other. At the
end of the run the free one is still there, and the others have one witness. The bound on
witnesses is reached. -/
theorem Reachable.subformula_property_rebound :
    let P : Formula := .const "P" (.fn .individual .truth)
    let Q : Formula := .const "Q" (.fn .individual .truth)
    let x : Formula := .var "x" .individual
    let c : Formula := .const "c1" .individual
    let goal : Formula := .not (.and (.app P x) (.ex "x" .individual
      (.not (.imp (.app P x) (.ex "x" .individual (.app Q x))))))
    let a := (Attempt.initial goal (.steps 5) .byName).run.attempt
    Reachable goal 5 .byName a ∧
      a.root.leaves.map Label.formulas =
        [[.formula (.not (.app Q c)), .formula (.app P c), .formula (.app P x)]] ∧
      (∀ u ∈ a.root.nodes, ∀ e ∈ u.label.formulas, ∃ s ∈ goal.negate.subformulas,
        e = .formula (s.fill a.supply.witnesses) ∨
          e = .formula (.not (s.fill a.supply.witnesses))) ∧
      {f | Appears goal 5 .byName f}.encard ≤ 16 ∧
      a.supply.minted = goal.binders.dedup.length := by
  intro P Q x c goal a
  have hreach : Reachable goal 5 .byName a := (run_spec goal 5 .byName).1
  have hrun : (fun a : Attempt => (a.root.leaves.map Label.formulas, a.supply.minted))
        (Attempt.initial goal (.steps 5) .byName).run.attempt =
      ([[.formula (.not (.app Q c)), .formula (.app P c), .formula (.app P x)]], 1) := by cbv
  obtain ⟨hleaves, hminted⟩ := Prod.mk.inj hrun
  have hbound : goal.binders.dedup.length = 1 := by decide
  have hcount : goal.negate.subformulas.dedup.length = 8 := by decide
  obtain ⟨hfill, hcard, -⟩ := hreach.subformula_property
  rw [hcount] at hcard
  refine ⟨hreach, hleaves, fun u hu e he => ?_, hcard, by rw [hbound]; exact hminted⟩
  obtain ⟨s, hs, -, hsign⟩ := hfill u hu e he
  exact ⟨s, hs, hsign⟩

end Attempt

end Refutation
