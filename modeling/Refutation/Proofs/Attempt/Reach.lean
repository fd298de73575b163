import Refutation.Attempt.Run
import Refutation.Proofs.Attempt.Growth

/-!
# Every attempt a run can reach

`Attempt.Coherent` collects what holds of an attempt at every point of a run: its tree grew
from the negated goal, no node number occurs twice, and the witnesses are numbered in the
order in which they were minted. `Advances` tells all that a step can do.

* `Coherent.advance`: **a step of a coherent attempt is never refused.**
* `Coherent.of_advances`: a step keeps an attempt coherent.
* `Reachable.coherent`: so every attempt a run can reach is coherent.
* `run_spec`: **a run within a numeric budget reaches a halted attempt without a fault.**
-/

namespace Refutation

/-- The witnesses are constants numbered in the order in which they were minted. -/
structure Supply.Numbered (s : Supply) : Prop where
  minted : s.minted = s.witnesses.length
  names : ∀ (i : Nat) k c, s.witnesses[i]? = some (k, c) →
    ∃ τ, c = .const (Supply.witnessName (i + 1)) τ

/-- What holds of an attempt for a goal at every point of a run. -/
structure Attempt.Coherent (goal : Formula) (a : Attempt) : Prop where
  grown : Grown a.policy a.supply.witnesses a.log (Attempt.rootLabel goal) a.root
  nodup : a.root.ids.Nodup
  below : ∀ i ∈ a.root.ids, i < a.supply.nextId
  numbered : a.supply.Numbered
  halted : a.halted = true → a.stepLimitReached = false → a.root.next? = none

/-- What a step can do: halt, for one of two reasons, or expand the picked formula of an
open leaf. -/
inductive Attempt.Advances (a : Attempt) : Attempt → Outcome → Prop
  | exhausted (hn : a.root.next? = none) :
      Advances a { a with halted := true, haltReason := "no expandable formulas" } .exhausted
  | limit {u : Tree} {m : Match} {n : Int} (hn : a.root.next? = some (u, m))
      (hl : a.maxSteps.limit? = some n) (hs : n ≤ a.step) :
      Advances a
        { a with halted := true, stepLimitReached := true, haltReason := "max steps reached" }
        (.limit a.maxSteps)
  | applied {l : Label} {pre post : List Formula} {f w : Formula} {m : Match} {s : Supply}
      {e : Expansion} {n : Int} {detail after : String} (hn : a.root.next? = some (.node l [], m))
      (hl : a.maxSteps.limit? = some n) (hs : a.step < n) (hmem : .node l [] ∈ a.root.nodes)
      (hp : l.Picks pre f post m) (hd : a.supply.draw a.policy l.path f = (w, s))
      (hr : e.record = Expand.record (.node l []) m (a.step + 1) detail after (f.performed w))
      (hx : Expanded l (a.step + 1) f m (pre ++ post) w s e.tree e.supply) :
      Advances a { a.install l.id e with step := a.step + 1 } (.applied (.node l []) m e)

namespace Supply

variable {s s' : Supply} {p : WitnessPolicy} {path : List String} {f w : Formula}

/-- A witness is found in the table or minted. -/
theorem draw_cases (h : s.draw p path f = (w, s')) :
    (f.binding? = none ∧ s' = s) ∨
    ∃ x τ, f.binding? = some (x, τ) ∧
      ((s.witnesses.lookup (p.key (some x) f.text path) = some w ∧ s' = s) ∨
      (s.witnesses.lookup (p.key (some x) f.text path) = none ∧
        w = .const (witnessName (s.minted + 1)) τ ∧
        s' = { s with
          minted := s.minted + 1
          witnesses := s.witnesses ++ [(p.key (some x) f.text path, w)] })) := by
  unfold draw at h
  cases hb : f.binding? with
  | none => rw [hb] at h; cases h; exact Or.inl ⟨rfl, rfl⟩
  | some b =>
    obtain ⟨x, τ⟩ := b
    rw [hb] at h
    right
    refine ⟨x, τ, rfl, ?_⟩
    simp only [witness] at h
    cases hk : s.witnesses.lookup (p.key (some x) f.text path) with
    | some c => rw [hk] at h; cases h; exact Or.inl ⟨rfl, rfl⟩
    | none => rw [hk] at h; cases h; exact Or.inr ⟨rfl, rfl, rfl⟩

theorem draw_nextId (h : s.draw p path f = (w, s')) : s'.nextId = s.nextId := by
  rcases draw_cases h with ⟨-, rfl⟩ | ⟨x, τ, -, ⟨-, rfl⟩ | ⟨-, -, rfl⟩⟩ <;> rfl

theorem draw_prefix (h : s.draw p path f = (w, s')) : s.witnesses <+: s'.witnesses := by
  rcases draw_cases h with ⟨-, rfl⟩ | ⟨x, τ, -, ⟨-, rfl⟩ | ⟨-, -, rfl⟩⟩
  · exact List.prefix_rfl
  · exact List.prefix_rfl
  · exact List.prefix_append _ _

/-- The witness drawn is in the table afterwards. -/
theorem draw_witnessed (h : s.draw p path f = (w, s')) : Witnessed p s'.witnesses path f w := by
  intro x τ hb
  rcases draw_cases h with ⟨hn, -⟩ | ⟨y, σ, hy, ⟨hk, rfl⟩ | ⟨hk, -, rfl⟩⟩
  · rw [hb] at hn; cases hn
  · rw [hb] at hy; cases hy; exact hk
  · rw [hb] at hy; cases hy
    rw [List.lookup_append, hk]
    simp

/-- What is found in a numbered table is a constant. -/
theorem Numbered.const_of_lookup (hs : s.Numbered) {k : Option String}
    (h : s.witnesses.lookup k = some w) :
    ∃ (i : Nat) (τ : Ty), i < s.witnesses.length ∧ s.witnesses[i]? = some (k, w) ∧
      w = .const (witnessName (i + 1)) τ := by
  obtain ⟨l₁, l₂, hl, -⟩ := List.lookup_eq_some_iff.1 h
  have hi : s.witnesses[l₁.length]? = some (k, w) := by rw [hl]; simp
  obtain ⟨τ, hτ⟩ := hs.names _ _ _ hi
  exact ⟨l₁.length, τ, (List.getElem?_eq_some_iff.1 hi).1, hi, hτ⟩

theorem Numbered.of_eq (hs : s.Numbered) (hm : s'.minted = s.minted)
    (hw : s'.witnesses = s.witnesses) : s'.Numbered := by
  refine ⟨by rw [hm, hw, hs.minted], ?_⟩
  rw [hw]; exact hs.names

theorem Numbered.draw (hs : s.Numbered) (h : s.draw p path f = (w, s')) : s'.Numbered := by
  rcases draw_cases h with ⟨-, rfl⟩ | ⟨x, τ, -, ⟨-, rfl⟩ | ⟨-, hw, rfl⟩⟩
  · exact hs
  · exact hs
  · refine ⟨by simp [hs.minted], ?_⟩
    intro i k c hi
    simp only at hi
    by_cases hlt : i < s.witnesses.length
    · rw [List.getElem?_append_left hlt] at hi
      exact hs.names i k c hi
    · rw [List.getElem?_append_right (by omega)] at hi
      obtain ⟨hlen, hki⟩ := List.getElem?_eq_some_iff.1 hi
      simp only [List.length_singleton, Nat.lt_one_iff] at hlen
      have hieq : (i : Int) = s.minted := by rw [hs.minted]; omega
      simp only [hlen, List.getElem_singleton, Prod.mk.injEq] at hki
      exact ⟨τ, by rw [← hki.2, hw, hieq]⟩

theorem Numbered.draw_const (hs : s.Numbered) (h : s.draw p path f = (w, s'))
    (hb : f.binding? ≠ none) : ∃ c τ, w = .const c τ := by
  rcases draw_cases h with ⟨hn, -⟩ | ⟨x, τ, -, ⟨hk, -⟩ | ⟨-, hw, -⟩⟩
  · exact absurd hn hb
  · obtain ⟨i, σ, -, -, hw⟩ := hs.const_of_lookup hk
    exact ⟨_, σ, hw⟩
  · exact ⟨_, τ, hw⟩

end Supply

namespace Expanded

variable {l : Label} {num : Int} {f : Formula} {m : Match} {rest : List Formula} {w : Formula}
  {s s' : Supply} {t : Tree}

theorem witnesses_eq (h : Expanded l num f m rest w s t s') : s'.witnesses = s.witnesses := by
  cases h <;> rfl

theorem minted_eq (h : Expanded l num f m rest w s t s') : s'.minted = s.minted := by
  cases h <;> rfl

/-- The expanded node keeps its number, and its children get new ones. -/
theorem ids_eq (h : Expanded l num f m rest w s t s') :
    ∃ new, t.ids = l.id :: new ∧ new.Nodup ∧ s.nextId ≤ s'.nextId ∧
      ∀ i ∈ new, s.nextId ≤ i ∧ i < s'.nextId := by
  have hbranch : ∀ i fs turn reason, (Expand.branchLabel l m num i fs turn reason).id = i := by
    intro i fs turn reason
    unfold Expand.branchLabel
    cases reason <;> rfl
  cases h with
  | close hps hc => exact ⟨[], by simp [Tree.ids_node, Expand.closedLabel]⟩
  | extend hps hc =>
    refine ⟨[s.nextId], ?_, by simp, by simp only; omega, ?_⟩
    · simp [Tree.ids_node, Expand.expandedLabel, Expand.childLabel]
    · intro i hi
      simp only [List.mem_singleton] at hi
      simp only
      omega
  | branch hps =>
    refine ⟨[s.nextId, s.nextId + 1], ?_, ?_, by simp only; omega, ?_⟩
    · simp [Tree.ids_node, Expand.expandedLabel, hbranch]
    · simp only [List.nodup_cons, List.mem_singleton, List.not_mem_nil, not_false_iff,
        List.nodup_nil, and_true]
      omega
    · intro i hi
      simp only [List.mem_cons, List.not_mem_nil, or_false] at hi
      simp only
      omega

end Expanded

namespace Attempt

variable {goal : Formula} {a b : Attempt} {o : Outcome}

/-- **A step of a coherent attempt is never refused.** -/
theorem Coherent.advance (h : a.Coherent goal) {n : Int} (hn : a.maxSteps.limit? = some n) :
    ∃ b o, a.advance = .ok (b, o) ∧ a.Advances b o := by
  unfold Attempt.advance
  cases hnext : a.root.next? with
  | none => exact ⟨_, _, rfl, .exhausted hnext⟩
  | some um =>
    obtain ⟨u, m⟩ := um
    simp only [hn]
    by_cases hs : a.step ≥ n
    · rw [if_pos hs]
      exact ⟨_, _, rfl, .limit hnext hn hs⟩
    · rw [if_neg hs]
      obtain ⟨l, pre, f, post, rfl, hmem, hp⟩ := h.grown.picks_of_next? hnext
      obtain ⟨⟨w, s⟩, hd⟩ : ∃ r, a.supply.draw a.policy l.path f = r := ⟨_, rfl⟩
      obtain ⟨e, detail, after, he, hr, hx⟩ :=
        expand_ok (a.step + 1) hp hd (h.numbered.draw_const hd)
      rw [he]
      exact ⟨_, _, rfl, .applied hnext hn (by omega) hmem hp hd hr hx⟩

/-- Numbers stay distinct when a node gets children with new numbers. -/
theorem nodup_ids_graft {l : Label} {t t' new : Tree} (hg : Tree.Graft (.node l []) new t t')
    (hnd : t.ids.Nodup) {k k' : Int} (hlt : ∀ i ∈ t.ids, i < k) {is : List Int}
    (hnew : new.ids = l.id :: is) (hind : is.Nodup) (hk : k ≤ k')
    (his : ∀ i ∈ is, k ≤ i ∧ i < k') : t'.ids.Nodup ∧ ∀ i ∈ t'.ids, i < k' := by
  obtain ⟨as, bs, h1, h2⟩ := hg.ids_eq
  have hl : (Tree.node l []).ids = [l.id] := by simp [Tree.ids_node]
  have hperm : t'.ids.Perm (is ++ t.ids) := by
    rw [h1, h2, hnew, hl]
    calc as ++ l.id :: is ++ bs = (as ++ [l.id]) ++ (is ++ bs) := by simp
      _ |>.Perm (is ++ (as ++ [l.id] ++ bs)) := by
        rw [← List.append_assoc (as ++ [l.id]), ← List.append_assoc is]
        exact List.Perm.append_right _ List.perm_append_comm
  constructor
  · rw [hperm.nodup_iff, List.nodup_append]
    refine ⟨hind, hnd, ?_⟩
    intro i hi j hj hij
    have := (his i hi).1
    have := hlt j hj
    omega
  · intro i hi
    rcases List.mem_append.1 (hperm.mem_iff.1 hi) with hi | hi
    · exact (his i hi).2
    · have := hlt i hi
      omega

/-- **A step keeps an attempt coherent.** -/
theorem Coherent.of_advances (h : a.Coherent goal) (hb : a.Advances b o) : b.Coherent goal := by
  cases hb with
  | exhausted hn => exact ⟨h.grown, h.nodup, h.below, h.numbered, fun _ _ => hn⟩
  | limit hn hl hs => exact ⟨h.grown, h.nodup, h.below, h.numbered, fun _ hf => by cases hf⟩
  | @applied l pre post f w m s e n detail after hn hl hs hmem hp hd hr hx =>
    have hg : Tree.Graft (.node l []) e.tree a.root (a.root.replace l.id e.tree) :=
      Tree.graft_replace h.nodup hmem
    have hws : a.supply.witnesses <+: e.supply.witnesses := by
      rw [hx.witnesses_eq]; exact Supply.draw_prefix hd
    have hgrown : Grown a.policy e.supply.witnesses (a.log ++ [e.record]) (rootLabel goal)
        (a.root.replace l.id e.tree) := by
      refine Grown.graft hg (h.grown.mono hws (List.subset_append_left _ _)) ?_
      intro k hk
      rw [hk.eq_of_open_leaf hp.opened]
      refine Grown.of_expanded hp ?_ ?_ hx
      · rw [hx.witnesses_eq]; exact Supply.draw_witnessed hd
      · exact ⟨e.record, by simp, by rw [hr]; rfl, by rw [hr]; rfl⟩
    obtain ⟨is, hids, hind, hle, his⟩ := hx.ids_eq
    rw [Supply.draw_nextId hd] at hle his
    obtain ⟨hnd, hbelow⟩ := nodup_ids_graft hg h.nodup h.below hids hind hle his
    refine ⟨hgrown, hnd, hbelow, ?_, ?_⟩
    · exact (h.numbered.draw hd).of_eq hx.minted_eq hx.witnesses_eq
    · intro hh hf
      have := h.halted hh hf
      rw [hn] at this; cases this

/-- The attempts that steps lead to from the start. -/
inductive Reachable (goal : Formula) (n : Int) (p : WitnessPolicy) : Attempt → Prop
  | initial : Reachable goal n p (Attempt.initial goal (.steps n) p)
  | step {a b : Attempt} {o : Outcome} (h : Reachable goal n p a) (hb : a.advance = .ok (b, o)) :
      Reachable goal n p b

theorem Coherent.initial (goal : Formula) (n : Int) (p : WitnessPolicy) :
    (Attempt.initial goal (.steps n) p).Coherent goal := by
  have hset : (rootLabel goal).Settled [goal.negate] := by
    refine ⟨rfl, ?_, ?_, rfl⟩
    · rw [contradiction?_singleton]; rfl
    · rw [contradiction?_singleton]; rfl
  refine ⟨.leaf hset, ?_, ?_, ⟨rfl, ?_⟩, ?_⟩
  · simp [Attempt.initial, Tree.ids_node]
  · simp [Attempt.initial, Tree.ids_node, rootLabel]
  · intro i k c hi
    simp [Attempt.initial] at hi
  · intro hh
    simp [Attempt.initial] at hh

variable {n : Int} {p : WitnessPolicy}

theorem Advances.maxSteps_eq (h : a.Advances b o) : b.maxSteps = a.maxSteps := by
  cases h <;> rfl

theorem Advances.policy_eq (h : a.Advances b o) : b.policy = a.policy := by
  cases h <;> rfl

/-- An attempt that can be reached is coherent and keeps its budget and its policy. -/
theorem Reachable.coherent (h : Reachable goal n p a) :
    a.Coherent goal ∧ a.maxSteps = .steps n ∧ a.policy = p := by
  induction h with
  | initial => exact ⟨.initial goal n p, rfl, rfl⟩
  | @step a b o h hb ih =>
    obtain ⟨hc, hm, hp⟩ := ih
    obtain ⟨b', o', hb', hadv⟩ := hc.advance (n := n) (by rw [hm]; rfl)
    rw [hb] at hb'; cases hb'
    exact ⟨hc.of_advances hadv, hadv.maxSteps_eq.trans hm, hadv.policy_eq.trans hp⟩

/-- What a step of an attempt that can be reached does. -/
theorem Reachable.advances (h : Reachable goal n p a) (hb : a.advance = .ok (b, o)) :
    a.Advances b o := by
  obtain ⟨hc, hm, -⟩ := h.coherent
  obtain ⟨b', o', hb', hadv⟩ := hc.advance (n := n) (by rw [hm]; rfl)
  rw [hb] at hb'; cases hb'
  exact hadv

/-- From an attempt that can be reached another step can be taken. -/
theorem Reachable.exists_advance (h : Reachable goal n p a) :
    ∃ b o, a.advance = .ok (b, o) ∧ a.Advances b o := by
  obtain ⟨hc, hm, -⟩ := h.coherent
  exact hc.advance (n := n) (by rw [hm]; rfl)

/-- What every step keeps holds of every attempt that can be reached. -/
theorem Reachable.invariant {P : Attempt → Prop} (h : Reachable goal n p a)
    (hinit : P (Attempt.initial goal (.steps n) p))
    (hstep : ∀ a b o, Reachable goal n p a → P a → a.Advances b o → P b) : P a := by
  induction h with
  | initial => exact hinit
  | step h hb ih => exact hstep _ _ _ h ih (h.advances hb)

/-- No more steps are taken than the budget allows. -/
theorem Reachable.step_le (h : Reachable goal n p a) (hn : 0 ≤ n) : a.step ≤ n := by
  refine h.invariant (P := fun a => a.step ≤ n) hn ?_
  intro a b o hr ih hadv
  obtain ⟨-, hmax, -⟩ := hr.coherent
  cases hadv with
  | exhausted hn => exact ih
  | limit hn hl hs => exact ih
  | applied hn hl hs hmem hp hd hr hx =>
    rw [hmax] at hl
    cases hl
    show a.step + 1 ≤ n
    omega

/-- Enough steps lead to a halted attempt, and none of them is refused. -/
theorem runFor_spec (k : Nat) (h : Reachable goal n p a) (hk : (n - a.step).toNat < k) :
    Reachable goal n p (runFor k a).attempt ∧ (runFor k a).fault = none ∧
      (runFor k a).attempt.halted = true := by
  induction k generalizing a with
  | zero => omega
  | succ k ih =>
    unfold runFor
    by_cases hh : a.halted = true
    · rw [if_pos hh]
      exact ⟨h, rfl, hh⟩
    rw [if_neg hh]
    obtain ⟨hc, hm, -⟩ := h.coherent
    obtain ⟨b, o, hb, hadv⟩ := hc.advance (n := n) (by rw [hm]; rfl)
    rw [hb]
    have hrb : Reachable goal n p b := h.step hb
    -- a halted attempt stays where it is
    have hstay : b.halted = true → Reachable goal n p (runFor k b).attempt ∧
        (runFor k b).fault = none ∧ (runFor k b).attempt.halted = true := by
      intro hbh
      cases k with
      | zero => exact ⟨hrb, rfl, hbh⟩
      | succ k => unfold runFor; rw [if_pos hbh]; exact ⟨hrb, rfl, hbh⟩
    cases hadv with
    | exhausted hn => exact hstay rfl
    | limit hn hl hs => exact hstay rfl
    | applied hn hl hs hmem hp hd hr hx =>
      refine ih hrb ?_
      rw [hm] at hl
      cases hl
      simp only
      omega

/-- With a known policy and a number of steps an attempt can be started. -/
theorem start_eq (goal : Formula) (n : Nat) (hp : p ∈ WitnessPolicy.known) :
    Attempt.start goal (.steps n) p = .ok (Attempt.initial goal (.steps n) p) := by
  have hn : ¬ (n : Int) < 0 := by omega
  simp only [Attempt.start, Attempt.checked, Attempt.initial, Budget.limit?, hn, if_false, hp,
    if_true]

/-- **A run within a numeric budget reaches a halted attempt without a fault.** -/
theorem run_spec (goal : Formula) (n : Int) (p : WitnessPolicy) :
    Reachable goal n p (Attempt.initial goal (.steps n) p).run.attempt ∧
      (Attempt.initial goal (.steps n) p).run.fault = none ∧
      (Attempt.initial goal (.steps n) p).run.attempt.halted = true := by
  refine runFor_spec _ .initial ?_
  simp only [patience, Attempt.initial, Budget.limit?, Option.getD_some]
  omega

end Attempt

end Refutation
