import Mathlib.Algebra.Order.BigOperators.Group.List
import Mathlib.Algebra.Order.Group.Nat
import Refutation.Proofs.Attempt.Reach
import Refutation.Proofs.Formula.Effort

/-!
# How runs halt

The burden of a tree is the effort left on its open leaves. A step lowers it
(`Expanded.burden_lt`), with one exception: a universal formula that is instantiated without
closing its leaf stays the first formula of the next leaf, and the search comes back to it
for ever, with the same witness (`Captured`). So there are at most as many steps before that as
the negated goal takes effort.

* `Captured.advances`: **a captured search stays captured**, until the budget is used up.
* `Reachable.advances_searching`: any other step halts, lowers the burden or is captured.
* `run_dichotomy`: **a run halts because nothing can be expanded, after a number of steps
  that the goal bounds, or it uses up its budget, and from that number on instantiates one
  universal formula with one witness.**
-/

namespace Refutation

open Expand Formula

/-- The effort of an entry. -/
def Entry.effort : Entry → Nat
  | .formula f => f.effort
  | _ => 1

/-- The effort left on a leaf, none if it is closed. -/
def Label.burden (l : Label) : Nat :=
  if l.closed then 0 else (l.formulas.map Entry.effort).prod

/-- The effort left on all leaves. -/
def Tree.burden (t : Tree) : Nat :=
  (t.leaves.map Label.burden).sum

variable {l : Label} {pre post : List Formula} {f w : Formula} {m : Match} {num : Int}
  {s s' : Supply} {t : Tree}

/-! ## A step lowers the burden -/

theorem Label.burden_le {fs : List Formula} (h : l.formulas = fs.map .formula) :
    l.burden ≤ efforts fs := by
  unfold Label.burden efforts
  rw [h, List.map_map]
  split
  · exact Nat.zero_le _
  · exact Nat.le_refl _

theorem Label.Picks.burden_eq (h : l.Picks pre f post m) :
    l.burden = f.effort * efforts (pre ++ post) := by
  have hall : l.burden = efforts (pre ++ f :: post) := by
    unfold Label.burden efforts
    rw [h.formulas, List.map_map, h.opened]
    rfl
  rw [hall, efforts_append, efforts_cons, efforts_append, Nat.mul_left_comm]

theorem Label.Picks.burden_pos (h : l.Picks pre f post m) : 0 < l.burden := by
  rw [h.burden_eq]
  exact Nat.mul_pos (effort_pos f) (efforts_pos _)

theorem Tree.burden_leaf (l : Label) : (Tree.node l []).burden = l.burden := by
  simp [Tree.burden, Tree.leaves]

/-- The burden of a node that was expanded is that of its children. -/
theorem Tree.burden_children (k : Label) (ls : List Label) (h : ls ≠ []) :
    (Tree.node k (ls.map fun l => .node l [])).burden = (ls.map Label.burden).sum := by
  unfold Tree.burden
  rw [Tree.leaves_node k (by simpa using h), List.flatMap_map]
  simp [Tree.leaves]

/-- A graft changes the burden by what it puts in and takes out. -/
theorem Tree.Graft.burden_eq {u new t' : Tree} (h : Tree.Graft u new t t') :
    t'.burden + u.burden = t.burden + new.burden := by
  obtain ⟨as, bs, h1, h2⟩ := h.leaves_eq
  unfold Tree.burden
  simp only [h1, h2, List.map_append, List.sum_append]
  omega

theorem eq_all_of_shape {x : String} {τ : Ty} {b : Formula} (h : f.shape = .gamma true x τ b) :
    f = .all x τ b := by
  unfold shape at h
  split at h <;> simp at h
  obtain ⟨rfl, rfl, rfl⟩ := h
  rfl

/-- **An expansion lowers the burden of its leaf**, unless it instantiates a universal formula
and leaves the leaf open. -/
theorem Expanded.burden_lt (hp : l.Picks pre f post m)
    (hw : f.binding? ≠ none → ∃ c τ, w = .const c τ)
    (hx : Expanded l num f m (pre ++ post) w s t s')
    (hf : ∀ x τ b, f = .all x τ b → contradiction? (f :: b.subst x w :: (pre ++ post)) ≠ none) :
    t.burden < l.burden := by
  have hrest := efforts_pos (pre ++ post)
  -- a formula that is not universal leaves less effort than it had
  have hlt : (∀ x τ b, f.shape ≠ .gamma true x τ b) → ∀ n,
      n ≤ ((f.parts w).map efforts).sum * efforts (pre ++ post) → n < l.burden := by
    intro hshape n hn
    rw [hp.burden_eq]
    have hsum := sum_efforts_parts_lt hw hshape
    calc n ≤ ((f.parts w).map efforts).sum * efforts (pre ++ post) := hn
      _ < f.effort * efforts (pre ++ post) := Nat.mul_lt_mul_of_pos_right hsum hrest
  cases hx with
  | close hps hc =>
    rw [Tree.burden_leaf]
    exact hp.burden_pos
  | @extend ps hps hc =>
    refine hlt (fun x τ b hs => ?_) _ ?_
    · have hfx := eq_all_of_shape hs
      have hps' : ps = [f, b.subst x w] := by
        unfold parts at hps
        rw [hs] at hps
        simpa using hps.symm
      exact hf x τ b hfx (by rw [hps'] at hc; exact hc)
    · have hle := Label.burden_le (l := childLabel l m num s.nextId
        ((ps ++ (pre ++ post)).map .formula) (l.instantiations ++ f.performed w)) rfl
      rw [efforts_append] at hle
      rw [hps, List.map_singleton, List.sum_singleton]
      exact Nat.le_trans (Nat.le_of_eq (Tree.burden_children _ [_] (by simp))) hle
  | @branch as bs hps =>
    refine hlt (fun x τ b hs => ?_) _ ?_
    · unfold parts at hps
      rw [hs] at hps
      simp at hps
    · -- each child has the effort of its own part and of what is left
      have hleft := Label.burden_le
        (branchLabel_settled (l := l) m num s.nextId (as ++ (pre ++ post)) "left").formulas
      have hright := Label.burden_le
        (branchLabel_settled (l := l) m num (s.nextId + 1) (bs ++ (pre ++ post)) "right").formulas
      rw [efforts_append] at hleft hright
      have hburden := Tree.burden_children (expandedLabel l m num)
        [branchLabel l m num s.nextId ((as ++ (pre ++ post)).map .formula) "left"
            (contradiction? (as ++ (pre ++ post))),
          branchLabel l m num (s.nextId + 1) ((bs ++ (pre ++ post)).map .formula) "right"
            (contradiction? (bs ++ (pre ++ post)))] (by simp)
      simp only [List.map_cons, List.map_nil, List.sum_cons, List.sum_nil, Nat.add_zero] at hburden
      rw [hburden, hps]
      simp only [List.map_cons, List.map_nil, List.sum_cons, List.sum_nil, Nat.add_zero, Nat.add_mul]
      omega

/-! ## The search is captured -/

namespace Attempt

/-- The attempt halted because nothing can be expanded. -/
structure Exhausted (a : Attempt) : Prop where
  halted : a.halted = true
  reason : a.haltReason = "no expandable formulas"
  limit : a.stepLimitReached = false

/-- The attempt halted because its budget was used up. -/
structure Stopped (a : Attempt) : Prop where
  halted : a.halted = true
  reason : a.haltReason = "max steps reached"
  limit : a.stepLimitReached = true

/-- The search has come to an open leaf whose first formula is universal and was instantiated
with the witness in the table. -/
def Captured (x : String) (τ : Ty) (b : Formula) (c : String) (σ : Ty) (a : Attempt) : Prop :=
  ∃ l post m, a.root.next? = some (.node l [], m) ∧ l.Picks [] (.all x τ b) post m ∧
    Witnessed a.policy a.supply.witnesses l.path (.all x τ b) (.const c σ) ∧
    b.subst x (.const c σ) ∈ post ∧ contradiction? (.all x τ b :: post) = none

end Attempt

namespace Outcome

/-- The record of a step that expanded a formula. -/
def record? : Outcome → Option Record
  | .applied _ _ e => some e.record
  | _ => none

/-- The children that a step hung below the leaf it expanded. -/
def made : Outcome → List Tree
  | .applied _ _ e => e.tree.children
  | _ => []

/-- The step instantiated the universal formula `∀x:τ.b` with the constant `c` of type `σ`. -/
structure Eliminates (x : String) (τ : Ty) (b : Formula) (c : String) (σ : Ty) (o : Outcome) :
    Prop where
  expanded : ∃ t m e, o = .applied t m e ∧ m.rule = .universal ∧
    m.formula = .formula (.all x τ b) ∧
    ∃ l ∈ e.tree.leaves, .formula (b.subst x (.const c σ)) ∈ l.formulas
  logged : ∃ r, o.record? = some r ∧ r.rule = Rule.universal.name ∧
    r.formula = (Formula.all x τ b).text ∧ r.instantiations = [.of (some x) c]

/-- The step made one child, the open leaf `k`, and the search goes on there. -/
structure HandsOn (o : Outcome) (k : Label) (a : Attempt) : Prop where
  child : o.made = [.node k []]
  opened : k.closed = false
  found : ∃ m, a.root.next? = some (.node k [], m)

end Outcome

section

variable {goal b : Formula} {n : Int} {p : WitnessPolicy} {a a' : Attempt} {o : Outcome}
  {x c : String} {τ σ : Ty} {e : Expansion} {detail after : String}

/-- A universal formula that does not close its leaf hangs one child below it. -/
theorem Expanded.eq_of_universal (hx : Expanded l num (.all x τ b) m post w s t s')
    (hc : contradiction? (.all x τ b :: b.subst x w :: post) = none) :
    t = .node (expandedLabel l m num) [.node (childLabel l m num s.nextId
      ((.all x τ b :: b.subst x w :: post).map .formula)
      (l.instantiations ++ (Formula.all x τ b).performed w)) []] := by
  have hparts : (Formula.all x τ b).parts w = [[.all x τ b, b.subst x w]] := rfl
  cases hx with
  | close hps hc' =>
    rw [hparts] at hps
    cases hps
    rw [show [Formula.all x τ b, b.subst x w] ++ post = .all x τ b :: b.subst x w :: post from rfl,
      hc] at hc'
    cases hc'
  | extend hps _ =>
    rw [hparts] at hps
    cases hps
    rfl
  | branch hps =>
    rw [hparts] at hps
    cases hps

/-- Instantiating a universal formula without closing the leaf captures the search. -/
theorem Attempt.Coherent.captured (h : a.Coherent goal)
    (hn : a.root.next? = some (.node l [], m)) (hmem : .node l [] ∈ a.root.nodes)
    (hp : l.Picks pre (.all x τ b) post m)
    (hd : a.supply.draw a.policy l.path (.all x τ b) = (.const c σ, s))
    (hr : e.record = record (.node l []) m (a.step + 1) detail after
      ((Formula.all x τ b).performed (.const c σ)))
    (hx : Expanded l (a.step + 1) (.all x τ b) m (pre ++ post) (.const c σ) s e.tree e.supply)
    (hc : contradiction? (.all x τ b :: b.subst x (.const c σ) :: (pre ++ post)) = none) :
    ({ a.install l.id e with step := a.step + 1 } : Attempt).Captured x τ b c σ ∧
      (Outcome.applied (.node l []) m e).Eliminates x τ b c σ ∧
      ∃ k, (Outcome.applied (.node l []) m e).HandsOn k
        { a.install l.id e with step := a.step + 1 } := by
  have htree := hx.eq_of_universal hc
  obtain ⟨hform, -, -⟩ := match?_some hp.expands
  have hrule : m.rule = .universal := by
    have hm := hp.expands
    simp only [match?, Option.some.injEq] at hm
    rw [← hm]
  -- the search finds the new child, and its first formula is the universal one
  have hg : Tree.Graft (.node l []) e.tree a.root (a.root.replace l.id e.tree) :=
    Tree.graft_replace h.nodup hmem
  have hnew : e.tree.next? = some (.node (childLabel l m (a.step + 1) s.nextId
      ((.all x τ b :: b.subst x (.const c σ) :: (pre ++ post)).map .formula)
      (l.instantiations ++ (Formula.all x τ b).performed (.const c σ))) [], m) := by
    rw [htree, next?_expanded hp.opened, Tree.nextIn?, Tree.nextIn?, Option.or_none, Tree.next?]
    simp [childLabel, Entry.match?, hp.expands]
  have hfound := hg.next?_eq h.nodup hn hnew
  refine ⟨?_, ?_, _, by rw [Outcome.made, htree]; rfl, rfl, m, hfound⟩
  · refine ⟨_, b.subst x (.const c σ) :: (pre ++ post), m, hfound, ?_, ?_, ?_, hc⟩
    · exact ⟨rfl, by simp, hp.expands, rfl⟩
    · show Witnessed a.policy e.supply.witnesses l.path _ _
      rw [hx.witnesses_eq]
      exact Supply.draw_witnessed hd
    · exact List.mem_cons_self
  · refine ⟨⟨_, _, _, rfl, hrule, hform, ?_⟩, e.record, rfl, ?_, ?_, ?_⟩
    · rw [htree]
      refine ⟨_, List.mem_singleton_self _, ?_⟩
      simp [childLabel]
    · rw [hr]; show m.rule.name = _; rw [hrule]
    · rw [hr]; show m.formula.text = _; rw [hform]; rfl
    · rw [hr]; rfl

/-- The formula picked first on a leaf that starts with a universal formula is that one. -/
theorem Label.Picks.eq_of_universal {rest : List Formula} {m' : Match}
    (h : l.Picks pre f post m) (h' : l.Picks [] (.all x τ b) rest m') :
    pre = [] ∧ f = .all x τ b ∧ post = rest := by
  have hmap : pre ++ f :: post = .all x τ b :: rest := by
    refine List.map_injective_iff.2 (fun f g hfg => ?_) (h.formulas.symm.trans h'.formulas)
    exact Entry.formula.inj hfg
  cases pre with
  | nil =>
    obtain ⟨hf, hpost⟩ := List.cons.inj hmap
    exact ⟨rfl, hf, hpost⟩
  | cons g pre =>
    -- the first formula has a rule, so nothing before the picked one can be it
    have hg : g = .all x τ b := (List.cons.inj hmap).1
    have hnone := h.inert g List.mem_cons_self
    rw [hg, h'.expands] at hnone
    cases hnone

/-- The witness in the table is the one that is drawn, and nothing is minted. -/
theorem Supply.draw_eq_of_witnessed {path : List String}
    (hw : Witnessed p s.witnesses path (.all x τ b) (.const c σ))
    (hd : s.draw p path (.all x τ b) = (w, s')) : w = .const c σ ∧ s' = s := by
  have hlook := hw x τ rfl
  rcases Supply.draw_cases hd with ⟨hb, -⟩ | ⟨y, ρ, hb, ⟨hk, hs⟩ | ⟨hk, -, -⟩⟩
  · cases hb
  · cases hb
    exact ⟨Option.some.inj (hk.symm.trans hlook), hs⟩
  · cases hb
    rw [hlook] at hk; cases hk

namespace Attempt

/-- **A captured search stays captured.** It instantiates the same formula with the same
witness again and hands on to a new leaf, or the budget is used up. -/
theorem Captured.advances (hr : Reachable goal n p a) (hcap : a.Captured x τ b c σ)
    (hadv : a.Advances a' o) :
    (a'.Stopped ∧ o.record? = none) ∨
      (a'.halted = a.halted ∧ a'.supply.witnesses = a.supply.witnesses ∧ a'.Captured x τ b c σ ∧
        o.Eliminates x τ b c σ ∧ ∃ k, o.HandsOn k a') := by
  obtain ⟨k, rest, m', hnext, hpick, hwit, hinst, hnone⟩ := hcap
  obtain ⟨hcoh, -, -⟩ := hr.coherent
  cases hadv with
  | exhausted hn => rw [hnext] at hn; cases hn
  | limit hn hl hs => exact Or.inl ⟨⟨rfl, rfl, rfl⟩, rfl⟩
  | @applied l pre post f w m s e _ detail after hn hl hs hmem hp hd hrec hx =>
    have hkm := hnext.symm.trans hn
    cases hkm
    obtain ⟨rfl, rfl, rfl⟩ := hp.eq_of_universal hpick
    obtain ⟨rfl, rfl⟩ := Supply.draw_eq_of_witnessed hwit hd
    -- the instance is there already, so it contradicts nothing
    have hc : contradiction? (.all x τ b :: b.subst x (.const c σ) :: ([] ++ post)) = none := by
      refine contradiction?_eq_none_of_subset ?_ hnone
      intro g hg
      rcases List.mem_cons.1 hg with rfl | hg
      · exact List.mem_cons_self
      · rcases List.mem_cons.1 hg with rfl | hg
        · exact List.mem_cons_of_mem _ hinst
        · exact List.mem_cons_of_mem _ hg
    exact Or.inr ⟨rfl, hx.witnesses_eq, hcoh.captured hn hmem hp hd hrec hx hc⟩

theorem Reachable.hasUniversal_of_next? (hr : Reachable goal n p a)
    (hn : a.root.next? = some (.node l [], m)) (hp : l.Picks pre (.all x τ b) post m) :
    goal.negate.hasUniversal true = true := by
  obtain ⟨hcoh, -, -⟩ := hr.coherent
  by_contra hne
  -- expansions make no universal quantifiers of positive polarity
  have hQ : Hereditary a.policy a.supply.witnesses fun f => f.hasUniversal true = false := by
    intro f w path hf hw ps hps g hg
    refine hasUniversal_of_mem_parts hf (fun hb => ?_) hps hg
    obtain ⟨⟨y, ρ⟩, hy⟩ := Option.ne_none_iff_exists'.1 hb
    obtain ⟨i, ρ', -, -, hwc⟩ := hcoh.numbered.const_of_lookup (hw y ρ hy)
    exact ⟨_, ρ', hwc⟩
  have hroot : (rootLabel goal).All fun f => f.hasUniversal true = false := by
    rw [Label.all_map [goal.negate] rfl]
    intro f hf
    rw [List.mem_singleton.1 hf]
    simpa using hne
  have hall := hp.all_picked (hcoh.grown.all_of_next? hQ hroot hn)
  simp [Formula.hasUniversal] at hall

/-- What a step does as long as the search is not captured: it halts, it lowers the burden, or
the search is captured now. -/
theorem Reachable.advances_searching (hr : Reachable goal n p a) (hh : a.halted = false)
    (hlim : a.stepLimitReached = false) (hadv : a.Advances a' o) :
    (a'.Exhausted ∧ o.record? = none) ∨
    (a'.Stopped ∧ o.record? = none ∧ n ≤ a.step ∧ 0 < a.root.burden) ∨
    (a'.halted = false ∧ a'.stepLimitReached = false ∧ a'.step = a.step + 1 ∧ o.record? ≠ none ∧
      (a'.root.burden < a.root.burden ∨
        0 < a.root.burden ∧ goal.negate.hasUniversal true = true ∧
          ∃ x τ b c σ, a'.Captured x τ b c σ)) := by
  obtain ⟨hcoh, hmax, -⟩ := hr.coherent
  have hpos : ∀ {u : Tree} {m : Match}, a.root.next? = some (u, m) → 0 < a.root.burden := by
    intro u m hn
    obtain ⟨k, pre, f, post, rfl, hmem, hp⟩ := hcoh.grown.picks_of_next? hn
    have hle : k.burden ≤ a.root.burden :=
      List.single_le_sum (by simp) _ (List.mem_map_of_mem (Tree.mem_leaves_of_mem_nodes hmem))
    have := hp.burden_pos
    omega
  cases hadv with
  | exhausted hn => exact Or.inl ⟨⟨rfl, rfl, hlim⟩, rfl⟩
  | @limit u m n' hn hl hs =>
    rw [hmax] at hl
    cases hl
    exact Or.inr (Or.inl ⟨⟨rfl, rfl, rfl⟩, rfl, hs, hpos hn⟩)
  | @applied l pre post f w m s e _ detail after hn hl hs hmem hp hd hrec hx =>
    refine Or.inr (Or.inr ⟨hh, hlim, rfl, by simp [Outcome.record?], ?_⟩)
    have hw : f.binding? ≠ none → ∃ c τ, w = .const c τ := hcoh.numbered.draw_const hd
    by_cases hcap : ∃ x τ b, f = .all x τ b ∧
        contradiction? (f :: b.subst x w :: (pre ++ post)) = none
    · obtain ⟨x, τ, b, rfl, hc⟩ := hcap
      obtain ⟨c, σ, rfl⟩ := hw (by simp [binding?, shape, Shape.binding?])
      obtain ⟨hcap, -⟩ := hcoh.captured hn hmem hp hd hrec hx hc
      exact Or.inr ⟨hpos hn, hr.hasUniversal_of_next? hn hp, x, τ, b, c, σ, hcap⟩
    · left
      have hlt : e.tree.burden < l.burden := by
        refine hx.burden_lt hp hw fun x τ b hf hc => hcap ⟨x, τ, b, hf, hc⟩
      have hg : Tree.Graft (.node l []) e.tree a.root (a.root.replace l.id e.tree) :=
        Tree.graft_replace hcoh.nodup hmem
      have hsum := hg.burden_eq
      rw [Tree.burden_leaf] at hsum
      show (a.root.replace l.id e.tree).burden < a.root.burden
      omega

/-! ## Whole runs -/

/-- The steps of a run that expanded a formula. -/
def Run.steps (r : Run) : List Outcome :=
  r.outcomes.filter (·.record?.isSome)

theorem runFor_succ (k : Nat) (hh : a.halted = false) (hb : a.advance = .ok (a', o)) :
    runFor (k + 1) a = { runFor k a' with outcomes := o :: (runFor k a').outcomes } := by
  rw [runFor, hh, hb]
  rfl

theorem runFor_of_halted (k : Nat) (hh : a.halted = true) : runFor k a = ⟨a, [], none⟩ := by
  cases k with
  | zero => rfl
  | succ k => rw [runFor, if_pos hh]

theorem steps_cons (r : Run) (o : Outcome) :
    Run.steps { r with outcomes := o :: r.outcomes } =
      if o.record?.isSome then o :: r.steps else r.steps := by
  unfold Run.steps
  rw [List.filter_cons]

theorem log_of_advance (hb : a.advance = .ok (a', o)) : a'.log = a.log ++ o.record?.toList := by
  unfold advance at hb
  split at hb
  · cases hb; simp [Outcome.record?]
  · split at hb
    · cases hb
    · split at hb
      · cases hb; simp [Outcome.record?]
      · split at hb
        · cases hb
        · cases hb; rfl

/-- **The log of a run is the records of its steps.** -/
theorem log_runFor (k : Nat) (a : Attempt) :
    (runFor k a).attempt.log = a.log ++ (runFor k a).steps.filterMap Outcome.record? := by
  induction k generalizing a with
  | zero => simp [runFor, Run.steps]
  | succ k ih =>
    cases hh : a.halted with
    | true => rw [runFor_of_halted _ hh]; simp [Run.steps]
    | false =>
      cases hadv : a.advance with
      | error e => simp [runFor, hh, hadv, Run.steps]
      | ok bo =>
        obtain ⟨a', o⟩ := bo
        have hlog := log_of_advance hadv
        rw [runFor_succ k hh hadv, steps_cons]
        show (runFor k a').attempt.log = _
        rw [ih a', hlog]
        cases ho : o.record? with
        | none => simp
        | some r => simp [ho]

/-- How a run ends, if `j` steps were taken before it: the goal allows `N` of them before the
search is captured. -/
inductive Ends (goal : Formula) (n : Int) (N j : Nat) (r : Run) : Prop
  | exhausted (h : r.attempt.Exhausted) (hlen : j + r.steps.length ≤ N)
  | stopped (h : r.attempt.Stopped) (hn : n < N) (hlen : j + r.steps.length ≤ N)
  | captured (h : r.attempt.Stopped) (hu : goal.negate.hasUniversal true = true)
      (hs : ∃ x τ b c σ, ∀ o ∈ r.steps.drop (N - j), o.Eliminates x τ b c σ)

/-- The steps of a captured search are all alike, and it ends with its budget. -/
theorem runFor_captured (k : Nat) (hr : Reachable goal n p a) (hh : a.halted = false)
    (hcap : a.Captured x τ b c σ) :
    (∀ o ∈ (runFor k a).steps, o.Eliminates x τ b c σ) ∧
      ((runFor k a).attempt.halted = true → (runFor k a).attempt.Stopped) := by
  induction k generalizing a with
  | zero => exact ⟨by simp [runFor, Run.steps], fun h => by rw [runFor, hh] at h; cases h⟩
  | succ k ih =>
    obtain ⟨hcoh, hmax, -⟩ := hr.coherent
    obtain ⟨a', o, hb, hadv⟩ := hcoh.advance (n := n) (by rw [hmax]; rfl)
    rw [runFor_succ k hh hb, steps_cons]
    rcases hcap.advances hr hadv with ⟨hstop, ho⟩ | ⟨hh', -, hcap', helim, -⟩
    · rw [runFor_of_halted k hstop.halted, ho]
      exact ⟨by simp [Run.steps], fun _ => hstop⟩
    · obtain ⟨hall, hend⟩ := ih (hr.step hb) (hh'.trans hh) hcap'
      obtain ⟨r, ho, -⟩ := helim.logged
      rw [ho]
      exact ⟨List.forall_mem_cons.2 ⟨helim, hall⟩, hend⟩

/-- **How a run ends from a search that is not captured**, if the burden leaves room for the
steps taken before. -/
theorem runFor_ends (N j k : Nat) (hr : Reachable goal n p a) (hh : a.halted = false)
    (hlim : a.stepLimitReached = false) (hj : a.step = j) (hN : j + a.root.burden ≤ N)
    (hk : (runFor k a).attempt.halted = true) : Ends goal n N j (runFor k a) := by
  induction k generalizing a j with
  | zero => rw [runFor, hh] at hk; cases hk
  | succ k ih =>
    obtain ⟨hcoh, hmax, -⟩ := hr.coherent
    obtain ⟨a', o, hb, hadv⟩ := hcoh.advance (n := n) (by rw [hmax]; rfl)
    rw [runFor_succ k hh hb] at hk ⊢
    have hsteps := steps_cons (runFor k a') o
    rcases hr.advances_searching hh hlim hadv with
      ⟨hex, ho⟩ | ⟨hstop, ho, hn, hpos⟩ | ⟨hh', hlim', hstep, ho, hcases⟩
    · refine .exhausted ?_ ?_
      · rw [runFor_of_halted k hex.halted]; exact hex
      · rw [hsteps, ho, runFor_of_halted k hex.halted]
        simp only [Option.isSome_none, Bool.false_eq_true, if_false, Run.steps, List.filter_nil,
          List.length_nil]
        omega
    · refine .stopped ?_ (by omega) ?_
      · rw [runFor_of_halted k hstop.halted]; exact hstop
      · rw [hsteps, ho, runFor_of_halted k hstop.halted]
        simp only [Option.isSome_none, Bool.false_eq_true, if_false, Run.steps, List.filter_nil,
          List.length_nil]
        omega
    · rw [if_pos (Option.isSome_iff_ne_none.2 ho)] at hsteps
      have hj' : a'.step = (j + 1 : Nat) := by rw [hstep, hj]; rfl
      have hroom : N - j = (N - (j + 1)) + 1 := by
        rcases hcases with hlt | ⟨hpos, -⟩ <;> omega
      rcases hcases with hlt | ⟨hpos, hu, x, τ, b, c, σ, hcap⟩
      · -- the burden pays for the step
        rcases ih (j + 1) (hr.step hb) hh' hlim' hj' (by omega) hk with
          ⟨hex, hlen⟩ | ⟨hstop, hn, hlen⟩ | ⟨hstop, hu, hs⟩
        · refine .exhausted hex ?_
          rw [hsteps, List.length_cons]; omega
        · refine .stopped hstop hn ?_
          rw [hsteps, List.length_cons]; omega
        · refine .captured hstop hu ?_
          rw [hsteps, hroom, List.drop_succ_cons]; exact hs
      · obtain ⟨hall, hend⟩ := runFor_captured k (hr.step hb) hh' hcap
        refine .captured (hend hk) hu ⟨x, τ, b, c, σ, ?_⟩
        rw [hsteps, hroom, List.drop_succ_cons]
        exact fun o ho => hall o (List.mem_of_mem_drop ho)

/-- **A run ends in one of two ways.** For every goal there is a number of steps such that a run,
whatever its budget and its policy, halts because nothing can be expanded after at most so
many steps, or uses up its budget, and then all its further steps instantiate one universal
formula with one constant. If no universal quantifier stands at a position of positive
polarity in the negated goal, a budget of so many steps is enough to halt for the first
reason. -/
theorem run_dichotomy (goal : Formula) :
    ∃ N : Nat, ∀ p ∈ WitnessPolicy.known, ∀ n : Nat,
      ∃ a, Attempt.start goal (.steps n) p = .ok a ∧ a.run.fault = none ∧
        a.run.attempt.log = a.run.steps.filterMap Outcome.record? ∧
        ((a.run.attempt.Exhausted ∧ a.run.steps.length ≤ N) ∨
          (a.run.attempt.Stopped ∧
            ∃ x τ b c σ, ∀ o ∈ a.run.steps.drop N, o.Eliminates x τ b c σ)) ∧
        (goal.negate.hasUniversal true = false → N ≤ n → a.run.attempt.Exhausted) := by
  refine ⟨goal.negate.effort, fun p hp n => ⟨_, start_eq goal n hp, ?_⟩⟩
  obtain ⟨-, hfault, hhalt⟩ := run_spec goal n p
  have hburden : (Attempt.initial goal (.steps n) p).root.burden = goal.negate.effort := by
    show (Tree.node (rootLabel goal) []).burden = _
    rw [Tree.burden_leaf]
    show efforts [goal.negate] = _
    rw [efforts_singleton]
  have hends : Ends goal n goal.negate.effort 0 (Attempt.initial goal (.steps n) p).run :=
    runFor_ends _ 0 _ .initial rfl rfl rfl (by rw [hburden]; omega) hhalt
  refine ⟨hfault, log_runFor _ _, ?_⟩
  rcases hends with ⟨hex, hlen⟩ | ⟨hstop, hn, hlen⟩ | ⟨hstop, hu, hs⟩
  · exact ⟨Or.inl ⟨hex, by omega⟩, fun _ _ => hex⟩
  · refine ⟨Or.inr ⟨hstop, "", .individual, goal, "", .individual, ?_⟩, fun _ hle => by omega⟩
    rw [List.drop_eq_nil_of_le (by omega)]
    exact fun o ho => by cases ho
  · exact ⟨Or.inr ⟨hstop, hs⟩, fun hno => by rw [hno] at hu; cases hu⟩

/-- That nothing both has a property and lacks it is decided within some budget, since its
negation only asks for a thing. -/
theorem run_dichotomy_consistency :
    let P : Formula := .const "P" (.fn .individual .truth)
    let x : Formula := .var "x" .individual
    let goal : Formula := .not (.ex "x" .individual (.and (.app P x) (.not (.app P x))))
    WitnessPolicy.byName ∈ WitnessPolicy.known ∧ goal.negate.hasUniversal true = false ∧
      ∃ N : Nat, ∀ n : Nat, N ≤ n →
        ∃ a, Attempt.start goal (.steps n) .byName = .ok a ∧ a.run.attempt.Exhausted := by
  intro P x goal
  have hp : WitnessPolicy.byName ∈ WitnessPolicy.known := by decide
  obtain ⟨N, hN⟩ := run_dichotomy goal
  refine ⟨hp, rfl, N, fun n hn => ?_⟩
  obtain ⟨a, hstart, -, -, -, hex⟩ := hN .byName hp n
  exact ⟨a, hstart, hex rfl hn⟩

end Attempt

end

end Refutation
