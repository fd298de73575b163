import Refutation.Attempt.Expand
import Refutation.Proofs.Formula.Shape

/-!
# What an expansion does

A leaf that holds formulas is expanded at the first of them that has a rule (`Label.Picks`).
The witness comes from the supply (`Supply.draw`), and what takes the formula's place is
given by `Formula.parts`: one list closes the node or hangs one child below it, two lists
hang two children below it. `expand_ok` says that this is all an expansion can do, and that
it is never refused.
-/

namespace Refutation

/-- The witness for expanding a formula on a branch, and what is left of the supply. A
formula that binds nothing takes none. -/
def Supply.draw (s : Supply) (p : WitnessPolicy) (path : List String) (f : Formula) :
    Formula × Supply :=
  match f.binding? with
  | none => (f, s)
  | some (x, τ) => s.witness (p.key (some x) f.text path) τ

/-- The instantiation made by expanding a formula with a witness, if any. -/
def Formula.performed (f w : Formula) : List Instantiation :=
  match f.binding?, w.name? with
  | some (x, _), some c => [.of (some x) c]
  | _, _ => []

/-- The first formula with a rule on an open label is `f`; `m` tells its rule. -/
structure Label.Picks (l : Label) (pre : List Formula) (f : Formula) (post : List Formula)
    (m : Match) : Prop where
  formulas : l.formulas = (pre ++ f :: post).map .formula
  inert : ∀ g ∈ pre, g.match? = none
  expands : f.match? = some m
  opened : l.closed = false

/-- The trees and supplies that expanding `f` on a leaf can give; `w` is the witness and
`s` what the supply holds after it was drawn. -/
inductive Expanded (l : Label) (num : Int) (f : Formula) (m : Match) (rest : List Formula)
    (w : Formula) (s : Supply) : Tree → Supply → Prop
  | close {ps : List Formula} {reason : String} (hps : f.parts w = [ps])
      (hc : contradiction? (ps ++ rest) = some reason) :
      Expanded l num f m rest w s
        (.node (Expand.closedLabel l m num ((ps ++ rest).map .formula) reason
          (l.instantiations ++ f.performed w)) []) s
  | extend {ps : List Formula} (hps : f.parts w = [ps]) (hc : contradiction? (ps ++ rest) = none) :
      Expanded l num f m rest w s
        (.node (Expand.expandedLabel l m num) [.node (Expand.childLabel l m num s.nextId
          ((ps ++ rest).map .formula) (l.instantiations ++ f.performed w)) []])
        { s with nextId := s.nextId + 1 }
  | branch {as bs : List Formula} (hps : f.parts w = [as, bs]) :
      Expanded l num f m rest w s
        (.node (Expand.expandedLabel l m num)
          [.node (Expand.branchLabel l m num s.nextId ((as ++ rest).map .formula) "left"
            (contradiction? (as ++ rest))) [],
          .node (Expand.branchLabel l m num (s.nextId + 1) ((bs ++ rest).map .formula) "right"
            (contradiction? (bs ++ rest))) []])
        { s with nextId := s.nextId + 1 + 1 }

variable {l : Label} {pre post : List Formula} {f : Formula} {m : Match}

/-- The first formula with a rule, among formulas. -/
theorem exists_picks {fs : List Formula} (hl : l.formulas = fs.map .formula)
    (ho : l.closed = false) (hm : l.formulas.findSome? Entry.match? = some m) :
    ∃ pre f post, l.Picks pre f post m := by
  rw [hl, List.findSome?_map, List.findSome?_eq_some_iff] at hm
  obtain ⟨pre, f, post, rfl, hf, hpre⟩ := hm
  exact ⟨pre, f, post, hl, hpre, hf, ho⟩

namespace Label.Picks

/-- Taking the picked formula off leaves the others in their order. -/
theorem erase (h : l.Picks pre f post m) :
    l.formulas.erase (.formula f) = (pre ++ post).map .formula := by
  have hnot : Entry.formula f ∉ pre.map Entry.formula := by
    intro hf
    obtain ⟨g, hg, hgf⟩ := List.mem_map.1 hf
    rw [Entry.formula.injEq] at hgf; subst hgf
    have := h.inert g hg
    rw [h.expands] at this; cases this
  rw [h.formulas, List.map_append, List.map_append, List.map_cons,
    List.erase_append_right _ hnot, List.erase_cons_head]

theorem formula_eq (h : l.Picks pre f post m) : m.formula = .formula f :=
  (Formula.match?_some h.expands).1

theorem mem (h : l.Picks pre f post m) : .formula f ∈ l.formulas := by
  rw [h.formulas]
  exact List.mem_map_of_mem (by simp)

end Label.Picks

namespace Expand

theorem closure_formulas (fs : List Formula) (s : Supply) :
    closure (fs.map .formula) s = .ok (contradiction? fs) := by
  rw [closure, Entry.contradiction_formulas]; rfl

/-- A rule that does not branch closes the leaf or hangs one child below it. -/
theorem extend_ok (l : Label) (m : Match) (num : Int) (s : Supply) (rest : List Formula)
    {w : Formula} {ps : List Formula} (hps : f.parts w = [ps]) {insts : List Instantiation}
    (hi : insts = l.instantiations ++ f.performed w) :
    ∃ t s', extend (.node l []) m num ((ps ++ rest).map .formula) insts s = .ok (t, s') ∧
      Expanded l num f m rest w s t s' := by
  subst hi
  unfold extend
  rw [closure_formulas]
  cases hc : contradiction? (ps ++ rest) with
  | none => exact ⟨_, _, rfl, .extend hps hc⟩
  | some reason => exact ⟨_, _, rfl, .close hps hc⟩

/-- A branching rule hangs two children below the leaf. -/
theorem branch_ok (l : Label) (m : Match) (num : Int) (s : Supply) (rest : List Formula)
    {w : Formula} {as bs : List Formula} (hps : f.parts w = [as, bs]) :
    ∃ t s', branch (.node l []) m num ((as ++ rest).map .formula) ((bs ++ rest).map .formula) s =
        .ok (t, s') ∧ Expanded l num f m rest w s t s' := by
  unfold branch
  rw [closure_formulas]
  simp only [Supply.takeId, bind, Except.bind, closure_formulas, pure, Except.pure]
  exact ⟨_, _, rfl, .branch hps⟩

end Expand

open Expand

/-- What an expansion of `f` gives, the wording of the record apart. -/
def Expanding (p : WitnessPolicy) (s : Supply) (l : Label) (num : Int) (f : Formula) (m : Match)
    (rest : List Formula) (w : Formula) (s' : Supply) : Prop :=
  ∃ e detail after, expand p s (.node l []) num m = .ok e ∧
    e.record = record (.node l []) m num detail after (f.performed w) ∧
    Expanded l num f m rest w s' e.tree e.supply

section

variable {p : WitnessPolicy} {s s' : Supply} {num : Int} {w : Formula}

theorem expanding_replace (h : l.Picks pre f post m) {ps : List Formula}
    (hm : m.move = .replace (ps.map .formula)) (hps : f.parts w = [ps])
    (hperf : f.performed w = []) : Expanding p s l num f m (pre ++ post) w s := by
  have hi : l.instantiations = l.instantiations ++ f.performed w := by
    rw [hperf, List.append_nil]
  obtain ⟨t, s'', hext, hx⟩ := extend_ok l m num s (pre ++ post) hps hi
  unfold Expanding expand
  simp only [Tree.label, h.formula_eq, h.mem, if_true, hm, h.erase]
  simp only [← List.map_append]
  rw [hext]
  exact ⟨_, _, _, rfl, by rw [hperf], hx⟩

theorem expanding_split (h : l.Picks pre f post m) {a b : Formula}
    (hm : m.move = .split a b) (hps : f.parts w = [[a], [b]])
    (hperf : f.performed w = []) : Expanding p s l num f m (pre ++ post) w s := by
  obtain ⟨t, s'', hbr, hx⟩ := branch_ok l m num s (pre ++ post) hps
  unfold Expanding expand
  simp only [Tree.label, h.formula_eq, h.mem, if_true, hm, h.erase]
  simp only [List.map_append, List.map_cons, List.cons_append, List.nil_append] at hbr ⊢
  rw [hbr]
  exact ⟨_, _, _, rfl, by rw [hperf], hx⟩

theorem expanding_instantiate (h : l.Picks pre f post m) {x c : String} {τ σ : Ty} {b : Formula}
    {keep : Bool} (hm : m.move = .instantiate (some x) τ b keep)
    (hwit : s.witness (p.key (some x) f.text l.path) τ = (.const c σ, s'))
    (hps : f.parts (.const c σ) =
      [if keep then [f, b.subst x (.const c σ)] else [b.subst x (.const c σ)]])
    (hperf : f.performed (.const c σ) = [.of (some x) c]) :
    Expanding p s l num f m (pre ++ post) (.const c σ) s' := by
  have hi : l.instantiations ++ [.of (some x) c] =
      l.instantiations ++ f.performed (.const c σ) := by rw [hperf]
  obtain ⟨t, s'', hext, hx⟩ := extend_ok l m num s' (pre ++ post) hps hi
  have hfs : ((if keep then [f, b.subst x (.const c σ)] else [b.subst x (.const c σ)]) ++
        (pre ++ post)).map Entry.formula =
      if keep then .formula f :: .formula (instantiated b (some x) (.const c σ)) ::
          (pre ++ post).map .formula
        else .formula (instantiated b (some x) (.const c σ)) :: (pre ++ post).map .formula := by
    cases keep <;> rfl
  rw [hfs] at hext
  unfold Expanding expand
  simp only [Tree.label, h.formula_eq, h.mem, if_true, hm, h.erase]
  simp only [Entry.text, hwit, Formula.name?, Entry.asFormula]
  rw [hext]
  exact ⟨_, _, _, rfl, by rw [hperf], hx⟩

/-- **An expansion at the picked formula succeeds**, logs the step, and gives one of the
trees of `Expanded`. -/
theorem expand_ok (num : Int) (h : l.Picks pre f post m) (hd : s.draw p l.path f = (w, s'))
    (hw : f.binding? ≠ none → ∃ c τ, w = .const c τ) :
    Expanding p s l num f m (pre ++ post) w s' := by
  obtain ⟨-, hmove, -⟩ := Formula.match?_some h.expands
  unfold Supply.draw Formula.binding? at hd
  unfold Formula.binding? at hw
  -- one case for each shape; a literal has no rule
  cases hs : f.shape with
  | literal => rw [hs] at hmove; cases hmove
  | alpha ps =>
    rw [hs] at hmove hd
    cases hd
    refine expanding_replace h (Option.some.inj hmove).symm ?_ ?_
    · unfold Formula.parts; rw [hs]
    · unfold Formula.performed Formula.binding?; rw [hs]; rfl
  | beta a b =>
    rw [hs] at hmove hd
    cases hd
    refine expanding_split h (Option.some.inj hmove).symm ?_ ?_
    · unfold Formula.parts; rw [hs]
    · unfold Formula.performed Formula.binding?; rw [hs]; rfl
  | gamma keep x τ b =>
    rw [hs] at hmove hd hw
    obtain ⟨c, σ, rfl⟩ := hw (by simp [Shape.binding?])
    refine expanding_instantiate h (Option.some.inj hmove).symm hd ?_ ?_
    · unfold Formula.parts; rw [hs]
    · unfold Formula.performed Formula.binding?; rw [hs]; rfl
  | delta x τ b =>
    rw [hs] at hmove hd hw
    obtain ⟨c, σ, rfl⟩ := hw (by simp [Shape.binding?])
    refine expanding_instantiate h (Option.some.inj hmove).symm hd ?_ ?_
    · unfold Formula.parts; rw [hs]; rfl
    · unfold Formula.performed Formula.binding?; rw [hs]; rfl

end

end Refutation
