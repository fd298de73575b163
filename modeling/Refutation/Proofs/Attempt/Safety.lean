import Refutation.Proofs.Attempt.Guarded
import Refutation.Proofs.Attempt.Halting
import Refutation.Report.Page

/-!
# No step of a run is refused

The search hands a step the node and the match it found, and the step relies on them
(`Match.Admissible`). In a guarded run the match is turned into a request first, so that
nothing is relied on, and what is told of a step is written with the same care.

* `Formula.asked_of_match?`: **every match can be handed over as a request**, whatever the shape of
  the formula.
* `Label.Picks.admissible`: what the search picks on a leaf that holds formulas is admissible.
* `Attempt.guardedAdvance_eq_ok_iff`: where the match is admissible, a guarded step does what
  the plain one does.
* `Attempt.Reachable.guardedRunFor_eq`: so a guarded run is the plain run, from every attempt
  that can be reached.
-/

namespace Refutation

open Guarded Reading

/-! ## Matches -/

/-- The request for a match: the name of its rule, the formula, and the pieces. -/
def Match.request (m : Match) : Request :=
  match m.move with
  | .replace parts => { rule := m.rule.name, formula := m.formula, parts }
  | .split left right => { rule := m.rule.name, formula := m.formula, parts := [left, right] }
  | .instantiate bound type body keep =>
    { rule := m.rule.name, formula := m.formula, bound, type, body, keep }

/-- What a step relies on when it expands a formula on a node. -/
structure Match.Admissible (m : Match) (t : Tree) : Prop where
  /-- The formula is on the node. -/
  found : m.formula ∈ t.label.formulas
  /-- The rule is known by its name. -/
  rule : ruleNamed m.request.rule = .ok m.rule
  /-- Its family is known by its name, and the pieces are those the family needs. -/
  family : moveNamed m.request m.rule.family.name = .ok m.move
  /-- A branching rule comes with two parts. -/
  two : m.rule.family = .beta → m.request.parts.length = 2
  /-- The node holds formulas. -/
  formulas : ∀ x ∈ t.label.formulas, x.IsFormula
  /-- What takes the place of the formula is formulas, or an instance of one. -/
  pieces : ∀ x ∈ m.move.pieces, x.IsFormula

/-- A move makes use of the pieces of the shape. -/
theorem Shape.pieces_of_move? {k : Shape} {move : Move} (h : k.move? = some move) :
    move.pieces = k.pieces.map .formula := by
  cases k <;> cases h <;> rfl

namespace Match

variable {m : Match} {t : Tree}

theorem request_rule (m : Match) : m.request.rule = m.rule.name := by
  unfold request
  cases m.move <;> rfl

theorem request_formula (m : Match) : m.request.formula = m.formula := by
  unfold request
  cases m.move <;> rfl

/-- A branching rule is asked for with two parts. -/
theorem length_parts_of_asked (h : m.request.asked? = some m) (hb : m.rule.family = .beta) :
    m.request.parts.length = 2 := by
  obtain ⟨-, -, hmove⟩ := Request.asked?_eq_some_iff.1 h
  rw [hb] at hmove
  simp only [Request.move?] at hmove
  split at hmove
  · rename_i hparts
    rw [hparts]
    rfl
  · cases hmove

theorem Admissible.asked (h : m.Admissible t) : m.request.asked? = some m :=
  Request.asked?_eq_some_iff.2 ⟨m.request_formula.symm, ruleNamed_eq_ok_iff.1 h.rule,
    moveNamed_eq_ok_iff.1 h.family⟩

/-- An admissible match passes the guards exactly if the expansion is granted. -/
theorem Admissible.guarded_eq_ok_iff (h : m.Admissible t) {p : WitnessPolicy} {s : Supply}
    {num : Int} {e : Expansion} :
    m.request.guarded p s t num = .ok e ↔ expand p s t num m = .ok e := by
  rw [Request.guarded_eq_ok_iff, Request.expand_of_asked h.asked]
  constructor
  · exact fun hx => hx.1
  · intro hx
    refine ⟨hx, h.formulas, ?_⟩
    intro m' hm'
    rw [h.asked] at hm'
    cases hm'
    exact h.pieces

end Match

/-- **Every match can be handed over as a request**: its rule is known by its name, and its
pieces are those which the family of the rule needs. -/
theorem Formula.asked_of_match? {f : Formula} {m : Match} (h : f.match? = some m) :
    m.request.asked? = some m := by
  obtain ⟨-, hmove, hfamily⟩ := match?_some h
  rw [Request.asked?_eq_some_iff, m.request_formula, m.request_rule, Rule.ofName?_name]
  refine ⟨rfl, rfl, ?_⟩
  unfold Match.request
  -- one case for each family; a literal has no rule
  generalize f.shape = k at hmove hfamily
  cases k with
  | literal => cases hmove
  | _ =>
    rw [← Option.some.inj hmove, ← Option.some.inj hfamily]
    rfl

/-- What the search picks on a leaf that holds formulas is admissible. -/
theorem Label.Picks.admissible {l : Label} {pre post : List Formula} {f : Formula} {m : Match}
    (h : l.Picks pre f post m) : m.Admissible (.node l []) := by
  have hasked := Formula.asked_of_match? h.expands
  obtain ⟨-, hrule, hmove⟩ := Request.asked?_eq_some_iff.1 hasked
  obtain ⟨hf, hshape, -⟩ := Formula.match?_some h.expands
  refine ⟨hf ▸ h.mem, ruleNamed_eq_ok_iff.2 hrule, moveNamed_eq_ok_iff.2 hmove,
    Match.length_parts_of_asked hasked, ?_, ?_⟩
  · show ∀ x ∈ l.formulas, x.IsFormula
    rw [h.formulas]
    exact Entry.isFormula_of_mem_map
  · rw [Shape.pieces_of_move? hshape]
    exact Entry.isFormula_of_mem_map

/-! ## What is told of a step -/

/-- What is told of a child that was made. -/
def Tree.guardedProgress (c : Tree) : Except Fault String := do
  let formulas ← listText c.label.formulas
  return "  [" ++ (if c.label.closed then "closed" else "open") ++ "] " ++
    ("#" ++ toString c.label.id ++ " " ++ formulas)

/-- What is told of a step while a run goes on. -/
def Outcome.guardedProgress : Outcome → Except Fault (List String)
  | .exhausted => .ok Outcome.exhausted.progress
  | .limit n => .ok (Outcome.limit n).progress
  | .applied t m e => do
    let target ← text m.formula
    let children ← e.tree.children.mapM Tree.guardedProgress
    return ["", "--- Step " ++ toString e.record.num ++ ": " ++ m.rule.name ++ " on " ++ target ++
        " (node #" ++ toString t.id ++ ") ---"] ++
      children ++
      (if e.tree.label.closed then
        ["  [closed] " ++ e.tree.label.closureReason.getD "None"] else []) ++
      (e.record.instantiations.map fun i => "  [witness] " ++ Instantiation.text i)

theorem Tree.guards_guardedProgress :
    Guards Tree.guardedProgress (fun c => ∀ x ∈ c.label.formulas, x.IsFormula) fun c =>
      "  [" ++ (if c.label.closed then "closed" else "open") ++ "] " ++ c.label.title := by
  have hformulas := guards_listText.comp fun c : Tree => c.label.formulas
  exact hformulas.andThen fun c formulas =>
    "  [" ++ (if c.label.closed then "closed" else "open") ++ "] " ++
      ("#" ++ toString c.label.id ++ " " ++ formulas)

theorem Outcome.guardedProgress_applied {t : Tree} {m : Match} {e : Expansion}
    (hm : m.formula.IsFormula)
    (hc : ∀ c ∈ e.tree.children, ∀ x ∈ c.label.formulas, x.IsFormula) :
    (Outcome.applied t m e).guardedProgress = .ok (Outcome.applied t m e).progress := by
  unfold guardedProgress
  simp only [bind_eq_ok_iff, guards_text _ _]
  exact ⟨_, ⟨hm, rfl⟩, _, (Tree.guards_guardedProgress.mapM _ _).2 ⟨hc, rfl⟩, rfl⟩

/-- The children that an expansion makes hold formulas. -/
theorem Expanded.isFormula_of_mem_children {l : Label} {num : Int} {f : Formula} {m : Match}
    {rest : List Formula} {w : Formula} {s s' : Supply} {t c : Tree}
    (h : Expanded l num f m rest w s t s') (hc : c ∈ t.children) :
    ∀ x ∈ c.label.formulas, x.IsFormula := by
  cases h with
  | close hps hcl => cases hc
  | extend hps hcl =>
    cases List.mem_singleton.1 hc
    exact Entry.isFormula_of_mem_map
  | branch hps =>
    simp only [Tree.children, List.mem_cons, List.not_mem_nil, or_false] at hc
    rcases hc with rfl | rfl
    · rw [Tree.label, (branchLabel_settled m num _ _ "left").formulas]
      exact Entry.isFormula_of_mem_map
    · rw [Tree.label, (branchLabel_settled m num _ _ "right").formulas]
      exact Entry.isFormula_of_mem_map

namespace Attempt

/-! ## Steps and runs -/

/-- One step, its expansion handed over as a request. -/
def guardedAdvance (a : Attempt) : Except Fault (Attempt × Outcome) :=
  match a.root.next? with
  | none => .ok ({ a with halted := true, haltReason := "no expandable formulas" }, .exhausted)
  | some (t, m) =>
    match a.maxSteps.limit? with
    | none => .error (.refused .noBudget)
    | some n =>
      if a.step ≥ n then
        .ok ({ a with halted := true, stepLimitReached := true, haltReason := "max steps reached" },
          .limit a.maxSteps)
      else do
        let e ← m.request.guarded a.policy a.supply t (a.step + 1)
        return ({ a.install t.id e with step := a.step + 1 }, .applied t m e)

/-- At most `n` steps: where they lead, what they did, and what is told of them. -/
def guardedRunFor (n : Nat) (a : Attempt) :
    Except Fault (Attempt × List Outcome × List String) :=
  match n with
  | 0 => .ok (a, [], [])
  | n + 1 =>
    if a.halted then .ok (a, [], [])
    else do
      let (b, o) ← a.guardedAdvance
      let told ← o.guardedProgress
      let (c, os, lines) ← guardedRunFor n b
      return (c, o :: os, told ++ lines)

/-- All steps until the attempt has halted. -/
def guardedRun (a : Attempt) : Except Fault (Attempt × List Outcome × List String) :=
  guardedRunFor a.patience a

variable {goal : Formula} {n : Int} {p : WitnessPolicy} {a b : Attempt} {o : Outcome} {t : Tree}
  {m : Match}

/-- Where the match is admissible, a guarded step does what the plain one does. -/
theorem guardedAdvance_eq_ok_iff (h : ∀ t m, a.root.next? = some (t, m) → m.Admissible t) :
    a.guardedAdvance = .ok (b, o) ↔ a.advance = .ok (b, o) := by
  unfold guardedAdvance advance
  cases hnext : a.root.next? with
  | none => simp only [Except.ok.injEq]
  | some um =>
    obtain ⟨t, m⟩ := um
    cases a.maxSteps.limit? with
    | none => simp
    | some n =>
      simp only
      split
      · simp only [Except.ok.injEq]
      · have hm := h t m hnext
        simp only [bind_eq_ok_iff, hm.guarded_eq_ok_iff]
        cases expand a.policy a.supply t (a.step + 1) m with
        | error e => simp
        | ok e => simp [pure, Except.pure]

/-- What the search finds on a tree of a run is a node of it and an admissible match. -/
theorem Reachable.admissible (h : Reachable goal n p a) (hn : a.root.next? = some (t, m)) :
    t ∈ a.root.nodes ∧ m.Admissible t := by
  obtain ⟨l, pre, f, post, rfl, hmem, hp⟩ := h.coherent.1.grown.picks_of_next? hn
  exact ⟨hmem, hp.admissible⟩

/-- What a step does can be told, since only formulas have to be written. -/
theorem Advances.guardedProgress_eq (h : a.Advances b o) : o.guardedProgress = .ok o.progress := by
  cases h with
  | exhausted hn => rfl
  | limit hn hl hs => rfl
  | applied hn hl hs hmem hp hd hr hx =>
    exact Outcome.guardedProgress_applied ⟨_, hp.formula_eq⟩ fun c hc =>
      hx.isFormula_of_mem_children hc

/-- **From an attempt that can be reached a guarded step can be taken**, and it is the plain one. -/
theorem Reachable.exists_guardedAdvance (h : Reachable goal n p a) :
    ∃ b o, a.advance = .ok (b, o) ∧ a.guardedAdvance = .ok (b, o) ∧
      o.guardedProgress = .ok o.progress := by
  obtain ⟨b, o, hb, hadv⟩ := h.exists_advance
  exact ⟨b, o, hb, (guardedAdvance_eq_ok_iff fun t m hn => (h.admissible hn).2).2 hb,
    hadv.guardedProgress_eq⟩

/-- **A guarded run is the plain run**, from every attempt that can be reached. -/
theorem Reachable.guardedRunFor_eq (k : Nat) (h : Reachable goal n p a) :
    guardedRunFor k a = .ok ((runFor k a).attempt, (runFor k a).outcomes,
      (runFor k a).outcomes.flatMap Outcome.progress) := by
  induction k generalizing a with
  | zero => rfl
  | succ k ih =>
    cases hh : a.halted with
    | true =>
      rw [runFor_of_halted _ hh, guardedRunFor, if_pos hh]
      rfl
    | false =>
      obtain ⟨b, o, hb, hguarded, htold⟩ := h.exists_guardedAdvance
      rw [runFor_succ k hh hb, guardedRunFor, hh, hguarded]
      simp only [Bool.false_eq_true, if_false, bind, Except.bind, htold, ih (h.step hb), pure,
        Except.pure, List.flatMap_cons]

/-- **No step of a run is refused.** Whatever the goal, the budget and the policy, the run halts
without a fault, and the guarded run ends in the same attempt after the same steps and tells the
same of them. At each attempt on the way the formula to expand is on its node, its rule and the
family of the rule are known by their names, a branching rule comes with two parts, and what is
written, compared and instantiated is formulas. -/
theorem run_passes_guards (goal : Formula) (n : Nat) {p : WitnessPolicy}
    (hp : p ∈ WitnessPolicy.known) :
    ∃ a, Attempt.start goal (.steps n) p = .ok a ∧
      a.run.fault = none ∧ a.run.attempt.halted = true ∧
      a.guardedRun = .ok (a.run.attempt, a.run.outcomes,
        a.run.outcomes.flatMap Outcome.progress) ∧
      ∀ b, Reachable goal n p b →
        (∃ c o, b.advance = .ok (c, o) ∧ b.guardedAdvance = .ok (c, o) ∧
          o.guardedProgress = .ok o.progress) ∧
        ∀ t m, b.root.next? = some (t, m) → t ∈ b.root.nodes ∧ m.Admissible t := by
  obtain ⟨-, hfault, hhalt⟩ := run_spec goal n p
  refine ⟨_, start_eq goal n hp, hfault, hhalt, Reachable.initial.guardedRunFor_eq _, ?_⟩
  intro b hb
  exact ⟨hb.exists_guardedAdvance, fun t m hn => hb.admissible hn⟩

/-- That neither something both has a property and lacks it nor everything has it: the first step
splits the disjunction, whose rule is handed over by its name and with two parts. -/
theorem run_passes_guards_disjunction :
    let P : Formula := .const "P" (.fn .individual .truth)
    let x : Formula := .var "x" .individual
    let goal : Formula := .not (.or (.ex "x" .individual (.and (.app P x) (.not (.app P x))))
      (.all "x" .individual (.app P x)))
    WitnessPolicy.byOccurrence ∈ WitnessPolicy.known ∧
      ∃ a, Attempt.start goal (.steps (4 : Nat)) .byOccurrence = .ok a ∧
        (∃ b os lines, a.guardedRun = .ok (b, os, lines) ∧ b.halted = true) ∧
        ∃ t m, a.root.next? = some (t, m) ∧ m.request.rule = "∨ branching" ∧ m.Admissible t ∧
          m.request.parts.length = 2 := by
  intro P x goal
  have hp : WitnessPolicy.byOccurrence ∈ WitnessPolicy.known := by decide
  obtain ⟨a, hstart, -, hhalt, hrun, hsteps⟩ := run_passes_guards goal 4 hp
  have ha : a = Attempt.initial goal (.steps (4 : Nat)) .byOccurrence :=
    Except.ok.inj (hstart.symm.trans (start_eq goal 4 hp))
  refine ⟨hp, a, hstart, ⟨_, _, _, hrun, hhalt⟩, ?_⟩
  subst ha
  have hnext : ∃ t m, (Attempt.initial goal (.steps (4 : Nat)) .byOccurrence).root.next? =
      some (t, m) ∧ m.rule = .disjunction := ⟨_, _, rfl, rfl⟩
  obtain ⟨t, m, hn, hrule⟩ := hnext
  obtain ⟨-, hm⟩ := (hsteps _ .initial).2 t m hn
  exact ⟨t, m, hn, by rw [m.request_rule, hrule]; rfl, hm, hm.two (by rw [hrule]; rfl)⟩

end Attempt

end Refutation
