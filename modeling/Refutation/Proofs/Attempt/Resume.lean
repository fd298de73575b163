import Refutation.Proofs.Attempt.Course
import Refutation.Proofs.Attempt.Document
import Refutation.Proofs.Attempt.FreeVariables
import Refutation.Proofs.Attempt.WitnessTable

/-!
# Saving a run and taking it up again

All that stands in an attempt for a typed goal is typed: expansions take formulas apart, and a
witness has the type of the variable it stands for. So an attempt can be saved at any point of its
run, what is loaded is what was saved, and the run goes on from there as if nothing had happened.

* `Reachable.ofTerms`, `Reachable.plain`: an attempt that can be reached can be saved.
* `Attempt.checkpoint_resume`: **reading back and taking up again change nothing.**
-/

namespace Refutation

/-! ## Types of what is expanded -/

namespace Formula

variable {f g w : Formula}

theorem isTyped_subst (hf : f.isTyped = true) (hw : w.isTyped = true) (x : String) :
    (f.subst x w).isTyped = true := by
  induction f with
  | var n τ =>
    rw [subst]
    split
    · exact hw
    · exact hf
  | const n τ => exact hf
  | app f a ihf iha =>
    simp only [isTyped, Bool.and_eq_true] at hf
    simp only [subst, isTyped, ihf hf.1, iha hf.2, Bool.and_true]
  | not b ih => exact ih hf
  | binary op a b iha ihb =>
    simp only [isTyped, Bool.and_eq_true] at hf
    simp only [subst, isTyped, iha hf.1, ihb hf.2, Bool.and_true]
  | quant q n τ b ih =>
    rw [subst]
    split
    · exact hf
    · simp only [isTyped, Bool.and_eq_true] at hf
      simp only [isTyped, hf.1, ih hf.2, Bool.and_true]

theorem isTyped_of_mem_pieces (hf : f.isTyped = true) (h : g ∈ f.pieces) : g.isTyped = true := by
  refine of_mem_pieces (P := fun k => k.isTyped = true) (fun a => Iff.rfl) ?_ ?_ ?_ ?_ hf h
  · exact fun a b hab => by simpa [isTyped] using hab
  · exact fun a b hab => by simpa [isTyped] using hab
  · exact fun a b hab => by simpa [isTyped] using hab
  · intro q x τ b hb
    simp only [isTyped, Bool.and_eq_true] at hb
    exact hb.2

/-- The variable that a typed formula binds has a known type. -/
theorem isKnown_of_binding? (hf : f.isTyped = true) {x : String} {τ : Ty}
    (h : f.binding? = some (x, τ)) : τ.isKnown = true := by
  unfold binding? shape at h
  split at h <;> simp only [Shape.binding?, reduceCtorEq, Option.some.injEq, Prod.mk.injEq] at h
  all_goals
    obtain ⟨-, rfl⟩ := h
    simp only [isTyped, Bool.and_eq_true] at hf
    exact hf.1

end Formula

/-- Expansions with typed witnesses keep formulas typed. -/
theorem hereditary_isTyped {p : WitnessPolicy} {ws : Table}
    (hws : ∀ w ∈ ws, w.2.isTyped = true) : Hereditary p ws fun f => f.isTyped = true := by
  intro f w path hf hw ps hps g hg
  rcases Formula.mem_parts hps hg with rfl | ⟨-, hgf⟩ | ⟨x, τ, b, hb, hbf, rfl⟩
  · exact hf
  · exact Formula.isTyped_of_mem_pieces hf hgf
  · obtain ⟨l₁, l₂, hl, -⟩ := List.lookup_eq_some_iff.1 (hw x τ hb)
    have hmem : (p.key (some x) f.text path, w) ∈ ws := by
      rw [hl]
      exact List.mem_append_right _ List.mem_cons_self
    exact Formula.isTyped_subst (Formula.isTyped_of_mem_pieces hf hbf) (hws _ hmem) x

theorem Instantiation.Drawn.proper {p : WitnessPolicy} {ws : Table} {i : Instantiation}
    (h : i.Drawn p ws) : ∀ j ∈ i, Json.Proper j := by
  obtain ⟨x, c, -, -, rfl, -⟩ := h
  intro j hj
  rcases List.mem_pair.1 hj with rfl | rfl
  · exact .str x
  · exact .str c

namespace Attempt

variable {goal : Formula} {a b : Attempt} {n : Int} {p : WitnessPolicy}

theorem isTyped_negate (h : goal.isTyped = true) : goal.negate.isTyped = true :=
  (Formula.negate_iff (Q := fun f => f.isTyped = true) (fun _ => Iff.rfl) goal).2 h

/-- **The witnesses for a typed goal are typed.** -/
theorem Reachable.isTyped_witnesses (hgoal : goal.isTyped = true) (h : Reachable goal n p a) :
    ∀ w ∈ a.supply.witnesses, w.2.isTyped = true := by
  refine h.invariant (P := fun a => ∀ w ∈ a.supply.witnesses, w.2.isTyped = true)
    (fun w hw => by cases hw) ?_
  intro a b o hreach ih hadv
  cases hadv with
  | exhausted hn => exact ih
  | limit hn hl hs => exact ih
  | @applied l pre post f w m s e _ detail after hn hl hs hmem hp hd hr hx =>
    show ∀ w ∈ e.supply.witnesses, _
    rw [hx.witnesses_eq]
    rcases Supply.draw_cases hd with ⟨-, rfl⟩ | ⟨x, τ, hb, ⟨-, rfl⟩ | ⟨-, rfl, rfl⟩⟩
    · exact ih
    · exact ih
    · -- the new witness has the type of the variable that the picked formula binds
      have hall := hreach.coherent.1.grown.all_of_next? (hereditary_isTyped ih)
        (rootLabel_all.2 (isTyped_negate hgoal)) hn
      have hf : f.isTyped = true := hp.all_picked hall
      refine List.forall_mem_append.2 ⟨ih, fun v hv => ?_⟩
      obtain rfl := List.mem_singleton.1 hv
      exact Formula.isKnown_of_binding? hf hb

theorem Reachable.goal_eq (h : Reachable goal n p a) : a.goal = some (.formula goal) := by
  refine h.invariant (P := fun a => a.goal = some (.formula goal)) rfl ?_
  intro a b o _ ih hadv
  cases hadv <;> exact ih

/-- **Only typed formulas stand in an attempt for a typed goal.** -/
theorem Reachable.ofTerms (hgoal : goal.isTyped = true) (h : Reachable goal n p a) : a.OfTerms where
  root u hu := by
    obtain ⟨hformulas, f, horigin, hf⟩ := h.entries
      (hereditary_isTyped (h.isTyped_witnesses hgoal)) (isTyped_negate hgoal) hgoal hu
    refine ⟨fun e he => ?_, fun e he => ?_⟩
    · obtain ⟨f, rfl, hf⟩ := hformulas e he
      exact hf
    · rw [horigin] at he
      cases he
      exact hf
  goal e he := by
    rw [h.goal_eq] at he
    cases he
    exact hgoal
  witnesses := h.isTyped_witnesses hgoal

/-- Nothing is lost when an attempt that can be reached is saved. -/
theorem Reachable.plain (h : Reachable goal n p a) : a.Plain where
  named w hw := by
    obtain ⟨i, hi, hw⟩ := List.mem_iff_getElem.1 hw
    have hledger := h.ledger (Q := fun _ _ => True) ⟨fun _ _ => trivial, fun _ _ _ _ _ _ _ _ _ _ _ => trivial⟩
      trivial
    obtain ⟨f, x, τ, path, -, hkey, -⟩ := hledger i w.1 w.2 (List.getElem?_eq_some_iff.2 ⟨hi, hw⟩)
    rw [hkey, WitnessPolicy.key]
    split <;> simp
  keys := h.nodup_keys
  nodes u hu i hi :=
    (h.drawn (List.mem_append_right _ (List.mem_flatMap.2 ⟨u, hu, hi⟩))).proper
  log r hr i hi := (h.drawn_of_log hr hi).proper

/-- **Reading back and taking up again change nothing.** An attempt in which only typed formulas
stand where formulas are expected, whatever its tree, its log and its table, is read back from its
own document as it was; the document alone tells it if every witness has a key. A run for a typed
goal can be saved after any number of steps. What is loaded from the saved text is what was saved,
and from there the run ends without a fault where it ends when it is not interrupted. -/
theorem checkpoint_resume :
    (∀ a : Attempt, a.OfTerms → a.Admissible → a.reread = .ok a ∧
      ((∀ w ∈ a.supply.witnesses, w.1 ≠ none) → ofJson a.toJson = .ok a)) ∧
    ∀ (goal : Formula) (n k : Nat) (p : WitnessPolicy), goal.isTyped = true →
      p ∈ WitnessPolicy.known → ∃ a, Attempt.start goal (.steps n) p = .ok a ∧
        ∃ text b, (runFor k a).attempt.save = .ok text ∧ load text = .ok b ∧
          b = (runFor k a).attempt ∧ b.run.fault = none ∧ b.run.attempt = a.run.attempt := by
  refine ⟨fun a h ha => ⟨h.reread_eq ha, fun hkeys => ?_⟩, fun goal n k p hgoal hp => ?_⟩
  · rw [h.ofJson_toJson ha, withKeyNames_eq hkeys]
  · refine ⟨_, start_eq goal n hp, ?_⟩
    have hinit : Reachable goal n p (Attempt.initial goal (.steps n) p) := .initial
    have hreach := hinit.of_leadsTo (hinit.leadsTo_runFor k)
    generalize (runFor k (Attempt.initial goal (.steps n) p)).attempt = b at hreach
    obtain ⟨-, hmax, hpol⟩ := hreach.coherent
    have hadm : b.Admissible := by
      refine ⟨⟨n, ?_, by omega⟩, ?_⟩
      · rw [hmax]
        rfl
      · rw [hpol]
        exact hp
    obtain ⟨text, hsave, hload⟩ := (hreach.ofTerms hgoal).load_save hadm hreach.plain
    refine ⟨text, b, hsave, hload, rfl, ?_, hreach.run_eq⟩
    refine (runFor_spec _ hreach ?_).2.1
    rw [patience, hmax]
    show (n - b.step).toNat < (n - b.step).toNat + 1
    omega

/-- A tree whose witness has no key, with a truth value as its budget, is read back. A run for the
goal that there is somebody who drinks only if everybody does is saved after two steps, with a
witness on its table, and taken up again. -/
theorem checkpoint_resume_drinker :
    let P : Formula := .const "P" (.fn .individual .truth)
    let x : Formula := .var "x" .individual
    let a : Attempt :=
      { root := .node { id := 0, formulas := [.formula (.not (.app P x))] }
          [.node { id := 7, formulas := [], closed := true, path := ["root", "left"] } []]
        goal := some (.formula (.app P x))
        supply := ⟨8, 1, [(none, .const "c1" .individual)]⟩
        maxSteps := .other (.bool true)
        policy := .byOccurrence }
    let goal : Formula := .ex "x" .individual (.imp (.app P x) (.all "x" .individual (.app P x)))
    let b := Attempt.initial goal (.steps (5 : Nat)) .byName
    let c := (runFor 2 b).attempt
    (a.OfTerms ∧ a.Admissible ∧ a.reread = .ok a) ∧ goal.isTyped = true ∧
      c.supply.witnesses = [(some "x", .const "c1" .individual)] ∧
        ∃ text, c.save = .ok text ∧ load text = .ok c ∧ c.run.attempt = b.run.attempt := by
  intro P x a goal b c
  obtain ⟨hreread, hresume⟩ := checkpoint_resume
  have hterms : a.OfTerms := by
    refine ⟨fun u hu => ?_, fun e he => ?_, fun w hw => ?_⟩
    · rcases List.mem_pair.1 (show u ∈ [_, _] from hu) with rfl | rfl
      · refine ⟨fun e he => ?_, fun e he => by cases he⟩
        cases List.mem_singleton.1 he
        rfl
      · refine ⟨fun e he => ?_, fun e he => ?_⟩ <;> cases he
    · cases he
      rfl
    · cases List.mem_singleton.1 hw
      rfl
  have hadm : a.Admissible := ⟨⟨1, rfl, by decide⟩, by decide⟩
  have hgoal : goal.isTyped = true := rfl
  have hrun : (fun c : Attempt => c.supply.witnesses) c =
      [(some "x", .const "c1" .individual)] := by
    show (fun c : Attempt => c.supply.witnesses)
      (runFor 2 (Attempt.initial goal (.steps 5) .byName)).attempt = _
    cbv
  obtain ⟨b', hb, text, c', hsave, hload, rfl, -, hend⟩ :=
    hresume goal 5 2 .byName hgoal (by decide)
  obtain rfl : b = b' := Except.ok.inj ((start_eq goal 5 (by decide)).symm.trans hb)
  exact ⟨⟨hterms, hadm, (hreread a hterms hadm).1⟩, hgoal, hrun, text, hsave, hload, hend⟩

end Attempt

end Refutation
