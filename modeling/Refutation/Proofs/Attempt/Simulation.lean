import Mathlib.Data.List.Forall2
import Refutation.Proofs.Attempt.Course
import Refutation.Proofs.Attempt.Ledger
import Refutation.Proofs.Pattern.Recast
import Refutation.Proofs.Tree.Relabel

/-!
# Two runs side by side

The run for a goal and the run for the recast goal go through the same steps, as long as recasting
keeps apart what the program compares: the constants and the sealed formulas that unification looks
at, and the keys of the witnesses (`Faithful`). What is known of the formulas of the first run is
enough to know this, since the second run mirrors it (`Attempt.Mirrors`): its tree is the tree of
the first with every formula recast, and only wording differs elsewhere.

* `Attempt.Mirrors.advance`: a step of both keeps one the mirror of the other.
* `Attempt.Mirrors.runFor`: so do any number of steps.
-/

namespace Refutation

open Expand

/-- The label without the wording of the reason why it is closed. -/
def Label.wordless (l : Label) : Label :=
  { l with closureReason := none }

/-- The label with its formulas recast, without the wording of the reason why it is closed. -/
def Label.recast (ρ : String → String) (ε : Ty → Ty) (l : Label) : Label :=
  { l with
    formulas := l.formulas.map (Entry.recast ρ ε)
    origin := l.origin.map (Entry.recast ρ ε)
    closureReason := none }

/-- The record without the texts of formulas. -/
def Record.wordless (r : Record) : Record :=
  { r with description := "", before := "", after := "", formula := "" }

/-- Recasting keeps apart what a run compares, where `Q` is known of its formulas: constants,
sealed formulas and keys. Witnesses keep their names. -/
structure Faithful (p : WitnessPolicy) (Q : Table → Formula → Prop) (ρ : String → String)
    (ε : Ty → Ty) : Prop where
  kept : Kept p Q
  witness : ∀ k : Nat, ρ (Supply.witnessName (k + 1)) = Supply.witnessName (k + 1)
  apart : ∀ s : Supply, s.Numbered → ∀ fs, (∀ f ∈ fs, Q s.witnesses f) → Formula.Apart ρ ε fs
  keys : ∀ s : Supply, s.Numbered → ∀ {f g : Formula} {x y : String} {σ τ : Ty} (i j : List String),
    Q s.witnesses f → Q s.witnesses g → f.binding? = some (x, σ) → g.binding? = some (y, τ) →
      (p.key (some x) (f.recast ρ ε).text i = p.key (some y) (g.recast ρ ε).text j ↔
        p.key (some x) f.text i = p.key (some y) g.text j)

/-- Two tables with the same witnesses, minted for formulas of which one is the other recast. -/
def Table.Mirrors (p : WitnessPolicy) (Q : Formula → Prop) (ρ : String → String) (ε : Ty → Ty) :
    Table → Table → Prop :=
  List.Forall₂ fun v w => ∃ (f : Formula) (x : String) (τ : Ty) (path : List String),
    f.binding? = some (x, τ) ∧ Q f ∧ v.1 = p.key (some x) f.text path ∧
      w.1 = p.key (some x) (f.recast ρ ε).text path ∧ w.2 = v.2.recast ρ ε

/-- The second attempt is the first with all formulas recast, wording apart. -/
structure Attempt.Mirrors (p : WitnessPolicy) (Q : Table → Formula → Prop) (ρ : String → String)
    (ε : Ty → Ty) (a b : Attempt) : Prop where
  root : b.root.relabel Label.wordless = a.root.relabel (Label.recast ρ ε)
  log : b.log.map Record.wordless = a.log.map Record.wordless
  nextId : b.supply.nextId = a.supply.nextId
  minted : b.supply.minted = a.supply.minted
  table : Table.Mirrors p (Q a.supply.witnesses) ρ ε a.supply.witnesses b.supply.witnesses
  step : b.step = a.step
  halted : b.halted = a.halted
  reason : b.haltReason = a.haltReason
  limit : b.stepLimitReached = a.stepLimitReached

variable {p : WitnessPolicy} {Q : Table → Formula → Prop} {ρ : String → String} {ε : Ty → Ty}

/-! ## Searching -/

theorem Label.id_wordless (l : Label) : l.wordless.id = l.id := rfl

theorem Label.id_recast (l : Label) : (l.recast ρ ε).id = l.id := rfl

theorem Label.keepsSearch_wordless : Tree.KeepsSearch Label.wordless where
  closed _ := rfl
  found _ := rfl

theorem Entry.isSome_match?_recast (e : Entry) :
    (e.recast ρ ε).match?.isSome = e.match?.isSome := by
  cases e with
  | formula f =>
    have hrule := congrArg Option.isSome (Formula.rule_recast (ρ := ρ) (ε := ε) f)
    rwa [Option.isSome_map, Option.isSome_map] at hrule
  | plain v => rfl
  | notPlain v => rfl

theorem Label.keepsSearch_recast : Tree.KeepsSearch (Label.recast ρ ε) where
  closed _ := rfl
  found l := by
    show ((l.formulas.map (Entry.recast ρ ε)).findSome? Entry.match?).isSome = _
    rw [List.findSome?_map, Bool.eq_iff_iff, List.findSome?_isSome_iff, List.findSome?_isSome_iff]
    simp only [Function.comp_apply, Entry.isSome_match?_recast]

/-- The formula picked on a recast label is the picked formula recast, and it has the same rule. -/
theorem Label.Picks.recast {l k : Label} {pre pre' post post' : List Formula} {f f' : Formula}
    {m m' : Match} (hk : k.wordless = l.recast ρ ε) (hp : l.Picks pre f post m)
    (hp' : k.Picks pre' f' post' m') :
    pre' = pre.map (Formula.recast ρ ε) ∧ f' = f.recast ρ ε ∧
      post' = post.map (Formula.recast ρ ε) ∧ m'.rule = m.rule := by
  have hformulas : k.formulas = l.formulas.map (Entry.recast ρ ε) := congrArg Label.formulas hk
  rw [hp.formulas, hp'.formulas, List.map_map] at hformulas
  have hlist : pre' ++ f' :: post' =
      pre.map (Formula.recast ρ ε) ++ f.recast ρ ε :: post.map (Formula.recast ρ ε) := by
    have hinj : Function.Injective Entry.formula := fun f g h => Entry.formula.inj h
    refine hinj.list_map ?_
    rw [hformulas, ← List.map_cons, ← List.map_append, List.map_map]
    rfl
  -- both lists are cut at their first formula with a rule
  have hpre : pre' = pre.map (Formula.recast ρ ε) := by
    have htake := congrArg (List.takeWhile fun g => g.match?.isNone) hlist
    rw [List.takeWhile_append_of_pos fun g hg => Option.isNone_iff_eq_none.2 (hp'.inert g hg),
      List.takeWhile_append_of_pos ?_, List.takeWhile_cons_of_neg ?_,
      List.takeWhile_cons_of_neg ?_, List.append_nil, List.append_nil] at htake
    · exact htake
    · rw [Option.isNone_iff_eq_none, Formula.match?_recast_eq_none_iff, hp.expands]
      exact Option.some_ne_none m
    · rw [hp'.expands]
      exact Bool.false_ne_true
    · intro g hg
      obtain ⟨k, hk, rfl⟩ := List.mem_map.1 hg
      exact Option.isNone_iff_eq_none.2 (Formula.match?_recast_eq_none_iff.2 (hp.inert k hk))
  rw [hpre] at hlist
  obtain ⟨rfl, hpost⟩ := List.cons.inj (List.append_cancel_left hlist)
  have hrule := Formula.rule_recast (ρ := ρ) (ε := ε) f
  rw [hp.expands, hp'.expands] at hrule
  exact ⟨hpre, rfl, hpost, Option.some.inj hrule⟩

/-! ## Drawing witnesses -/

section

variable {ws ws' : Table} {s s₁ t t₁ : Supply} {f w w' : Formula} {path : List String}

theorem Table.Mirrors.mono {Q R : Formula → Prop} (h : Table.Mirrors p Q ρ ε ws ws')
    (hQR : ∀ f, Q f → R f) : Table.Mirrors p R ρ ε ws ws' := by
  refine List.Forall₂.imp (fun v w hvw => ?_) h
  obtain ⟨f, x, τ, path, hb, hf, hrest⟩ := hvw
  exact ⟨f, x, τ, path, hb, hQR f hf, hrest⟩

/-- What is found under a key in one table is found under its counterpart in the other. -/
theorem Table.Mirrors.lookup_eq {Q : Formula → Prop} {key key' : Option String}
    (hkeys : ∀ (f : Formula) x τ path, Q f → f.binding? = some (x, τ) →
      (p.key (some x) (f.recast ρ ε).text path = key' ↔ p.key (some x) f.text path = key))
    (h : Table.Mirrors p Q ρ ε ws ws') :
    ws'.lookup key' = (ws.lookup key).map (Formula.recast ρ ε) := by
  induction h with
  | nil => rfl
  | @cons v w ws ws' hvw _ ih =>
    obtain ⟨v, c⟩ := v
    obtain ⟨w, d⟩ := w
    obtain ⟨f, x, τ, path, hb, hf, rfl, rfl, rfl⟩ := hvw
    have hkey := hkeys f x τ path hf hb
    rw [List.lookup_cons, List.lookup_cons]
    by_cases heq : key = p.key (some x) f.text path
    · have heq' : key' = p.key (some x) (f.recast ρ ε).text path := (hkey.2 heq.symm).symm
      rw [beq_iff_eq.2 heq, beq_iff_eq.2 heq']
      rfl
    · have heq' : key' ≠ p.key (some x) (f.recast ρ ε).text path :=
        fun h => heq (hkey.1 h.symm).symm
      rw [beq_false_of_ne heq, beq_false_of_ne heq']
      exact ih

/-- **Both runs draw the same witness**, and their tables stay mirrors of each other. -/
theorem Supply.draw_recast (hF : Faithful p Q ρ ε) (hs : s.Numbered) (hnext : t.nextId = s.nextId)
    (hminted : t.minted = s.minted)
    (htable : Table.Mirrors p (Q s.witnesses) ρ ε s.witnesses t.witnesses) (hf : Q s.witnesses f)
    (hd : s.draw p path f = (w, s₁)) (hd' : t.draw p path (f.recast ρ ε) = (w', t₁)) :
    w' = w.recast ρ ε ∧ t₁.nextId = s₁.nextId ∧ t₁.minted = s₁.minted ∧
      Table.Mirrors p (Q s₁.witnesses) ρ ε s₁.witnesses t₁.witnesses := by
  unfold draw at hd hd'
  rw [Formula.binding?_recast] at hd'
  cases hb : f.binding? with
  | none =>
    rw [hb] at hd hd'
    cases hd
    cases hd'
    exact ⟨rfl, hnext, hminted, htable⟩
  | some b =>
    obtain ⟨x, τ⟩ := b
    rw [hb] at hd hd'
    have hlook := htable.lookup_eq fun g y σ i hg hgb => hF.keys s hs i path hg hf hgb hb
    replace hd : s.witness (p.key (some x) f.text path) τ = (w, s₁) := hd
    replace hd' : t.witness (p.key (some x) (f.recast ρ ε).text path) (ε τ) = (w', t₁) := hd'
    unfold witness at hd hd'
    rw [hlook] at hd'
    cases hk : s.witnesses.lookup (p.key (some x) f.text path) with
    | some c =>
      rw [hk] at hd hd'
      cases hd
      cases hd'
      exact ⟨rfl, hnext, hminted, htable⟩
    | none =>
      rw [hk] at hd hd'
      cases hd
      cases hd'
      -- the number of the new witness is the length of the table and one more
      have hname : ρ (witnessName (s.minted + 1)) = witnessName (s.minted + 1) := by
        rw [hs.minted]
        exact hF.witness s.witnesses.length
      have hconst : Formula.const (witnessName (t.minted + 1)) (ε τ) =
          (Formula.const (witnessName (s.minted + 1)) τ).recast ρ ε := by
        rw [Formula.recast, hname, hminted]
      have hmono : ∀ g, Q s.witnesses g → Q (s.witnesses ++
          [(p.key (some x) f.text path, .const (witnessName (s.minted + 1)) τ)]) g :=
        fun g hg => hF.kept.mono (List.prefix_append _ _) hg
      refine ⟨hconst, hnext, by rw [hminted], ?_⟩
      refine List.rel_append (htable.mono hmono) (.cons ?_ .nil)
      exact ⟨f, x, τ, path, hb, hmono f hf, rfl, rfl, hconst⟩

end

/-! ## Expanding -/

section

variable {l k : Label} {m m' : Match} {num i : Int} {f w : Formula} {rest fs : List Formula}
  {insts : List Instantiation} {turn : String}

theorem map_formula_recast (fs : List Formula) :
    (fs.map (Formula.recast ρ ε)).map Entry.formula =
      (fs.map Entry.formula).map (Entry.recast ρ ε) := by
  rw [List.map_map, List.map_map]
  rfl

/-- Two matches for the same rule, of which one expands the recast formula. -/
structure Match.Mirrors (ρ : String → String) (ε : Ty → Ty) (f : Formula) (m m' : Match) : Prop where
  rule : m'.rule = m.rule
  formula : m.formula = .formula f
  formula' : m'.formula = .formula (f.recast ρ ε)

theorem expandedLabel_recast (hk : k.wordless = l.recast ρ ε) (hm : m.Mirrors ρ ε f m') :
    (expandedLabel k m' num).wordless = (expandedLabel l m num).recast ρ ε := by
  obtain ⟨hrule, hf, hf'⟩ := hm
  cases k
  cases l
  cases hk
  unfold expandedLabel
  rw [hrule, hf, hf']
  rfl

theorem closedLabel_recast (hk : k.wordless = l.recast ρ ε) (hm : m.Mirrors ρ ε f m')
    (reason reason' : String) :
    (closedLabel k m' num ((fs.map (Formula.recast ρ ε)).map .formula) reason' insts).wordless =
      (closedLabel l m num (fs.map .formula) reason insts).recast ρ ε := by
  obtain ⟨hrule, hf, hf'⟩ := hm
  cases k
  cases l
  cases hk
  unfold closedLabel
  rw [hrule, hf, hf', map_formula_recast]
  rfl

theorem childLabel_recast (hk : k.wordless = l.recast ρ ε) (hm : m.Mirrors ρ ε f m') :
    (childLabel k m' num i ((fs.map (Formula.recast ρ ε)).map .formula) insts).wordless =
      (childLabel l m num i (fs.map .formula) insts).recast ρ ε := by
  obtain ⟨hrule, hf, hf'⟩ := hm
  cases k
  cases l
  cases hk
  unfold childLabel
  rw [hf, hf', map_formula_recast]
  rfl

theorem branchLabel_recast (hk : k.wordless = l.recast ρ ε) (hm : m.Mirrors ρ ε f m')
    {reason reason' : Option String} (hreason : reason'.isSome = reason.isSome) :
    (branchLabel k m' num i ((fs.map (Formula.recast ρ ε)).map .formula) turn reason').wordless =
      (branchLabel l m num i (fs.map .formula) turn reason).recast ρ ε := by
  obtain ⟨hrule, hf, hf'⟩ := hm
  cases k
  cases l
  cases hk
  unfold branchLabel
  rw [hf, hf', map_formula_recast]
  cases reason with
  | none =>
    cases reason' with
    | none => rfl
    | some r => cases hreason
  | some r =>
    cases reason' with
    | none => cases hreason
    | some r => rfl

/-- **Both runs put the same tree in the place of the leaf**, one of them recast. -/
theorem Expanded.recast {s s₁ t t₁ : Supply} {u v : Tree} (hk : k.wordless = l.recast ρ ε)
    (hm : m.Mirrors ρ ε f m') (hnext : t.nextId = s.nextId)
    (hperf : (f.recast ρ ε).performed (w.recast ρ ε) = f.performed w)
    (hclash : ∀ ps ∈ f.parts w, (contradiction? ((ps ++ rest).map (Formula.recast ρ ε))).isSome =
      (contradiction? (ps ++ rest)).isSome)
    (hx : Expanded l num f m rest w s u s₁)
    (hx' : Expanded k num (f.recast ρ ε) m' (rest.map (Formula.recast ρ ε)) (w.recast ρ ε) t v t₁) :
    v.relabel Label.wordless = u.relabel (Label.recast ρ ε) ∧ t₁.nextId = s₁.nextId := by
  have hinsts : k.instantiations = l.instantiations := (congrArg Label.instantiations hk :)
  have hparts := Formula.parts_recast (ρ := ρ) (ε := ε) f w
  cases hx with
  | @close ps reason hps hc =>
    rw [hps] at hparts
    have hclash := hclash ps (by rw [hps]; exact List.mem_cons_self)
    rw [hc, List.map_append] at hclash
    cases hx' with
    | @close ps' reason' hps' hc' =>
      rw [hps'] at hparts
      obtain rfl := List.head_eq_of_cons_eq hparts
      refine ⟨?_, hnext⟩
      rw [Tree.relabel_node, Tree.relabel_node, hinsts, hperf, ← List.map_append]
      rw [closedLabel_recast hk hm reason reason']
      rfl
    | @extend ps' hps' hc' =>
      rw [hps'] at hparts
      obtain rfl := List.head_eq_of_cons_eq hparts
      rw [hc'] at hclash
      cases hclash
    | branch hps' => rw [hps'] at hparts; cases hparts
  | @extend ps hps hc =>
    rw [hps] at hparts
    have hclash := hclash ps (by rw [hps]; exact List.mem_cons_self)
    rw [hc, List.map_append] at hclash
    cases hx' with
    | @close ps' reason' hps' hc' =>
      rw [hps'] at hparts
      obtain rfl := List.head_eq_of_cons_eq hparts
      rw [hc'] at hclash
      cases hclash
    | @extend ps' hps' hc' =>
      rw [hps'] at hparts
      obtain rfl := List.head_eq_of_cons_eq hparts
      refine ⟨?_, by rw [hnext]⟩
      rw [Tree.relabel_node, Tree.relabel_node, hinsts, hperf, hnext, ← List.map_append,
        expandedLabel_recast hk hm, List.map_singleton, List.map_singleton, Tree.relabel_node,
        Tree.relabel_node, childLabel_recast hk hm]
      rfl
    | branch hps' => rw [hps'] at hparts; cases hparts
  | @branch as bs hps =>
    rw [hps] at hparts
    have hleft := hclash as (by rw [hps]; exact List.mem_cons_self)
    have hright := hclash bs (by rw [hps]; exact List.mem_cons_of_mem _ List.mem_cons_self)
    cases hx' with
    | close hps' hc' => rw [hps'] at hparts; cases hparts
    | extend hps' hc' => rw [hps'] at hparts; cases hparts
    | @branch as' bs' hps' =>
      rw [hps'] at hparts
      obtain ⟨rfl, rfl⟩ : as' = as.map (Formula.recast ρ ε) ∧ bs' = bs.map (Formula.recast ρ ε) := by
        simpa using hparts
      refine ⟨?_, by rw [hnext]⟩
      rw [← List.map_append, ← List.map_append, Tree.relabel_node, Tree.relabel_node, hnext,
        expandedLabel_recast hk hm]
      simp only [List.map_cons, List.map_nil, Tree.relabel_node]
      rw [branchLabel_recast hk hm hleft, branchLabel_recast hk hm hright]

end

/-- The witness of the table keeps its name, so the same instantiation is told. -/
theorem Faithful.performed_recast (hF : Faithful p Q ρ ε) {s : Supply} (hs : s.Numbered)
    {path : List String} {f w : Formula} (hw : Witnessed p s.witnesses path f w) :
    (f.recast ρ ε).performed (w.recast ρ ε) = f.performed w := by
  unfold Formula.performed
  rw [Formula.binding?_recast]
  cases hb : f.binding? with
  | none => rfl
  | some b =>
    obtain ⟨x, τ⟩ := b
    obtain ⟨i, σ, -, -, rfl⟩ := hs.const_of_lookup (hw x τ hb)
    have hname : ρ (Supply.witnessName (i + 1)) = Supply.witnessName (i + 1) := hF.witness i
    simp only [Option.map_some, Formula.recast, Formula.name?, hname]

/-! ## Steps and runs -/

namespace Attempt

variable {goal : Formula} {n : Int} {a b a' b' : Attempt} {o o' : Outcome}

/-- At the start the second attempt is the first recast. -/
theorem Mirrors.initial (goal : Formula) (n : Int) (p : WitnessPolicy) :
    Mirrors p Q ρ ε (Attempt.initial goal (.steps n) p)
      (Attempt.initial (goal.recast ρ ε) (.steps n) p) where
  root := by
    show Tree.relabel _ (.node (rootLabel _) []) = Tree.relabel _ (.node (rootLabel _) [])
    rw [Tree.relabel_node, Tree.relabel_node]
    unfold rootLabel
    simp only [Entry.negate, Formula.negate_recast]
    rfl
  log := rfl
  nextId := rfl
  minted := rfl
  table := .nil
  step := rfl
  halted := rfl
  reason := rfl
  limit := rfl

/-- Both searches find the same node. -/
theorem Mirrors.next?_eq (h : Mirrors p Q ρ ε a b) :
    b.root.next?.map (fun r => r.1.relabel Label.wordless) =
      a.root.next?.map fun r => r.1.relabel (Label.recast ρ ε) := by
  rw [← Tree.map_fst_next?_relabel Label.keepsSearch_wordless,
    ← Tree.map_fst_next?_relabel Label.keepsSearch_recast, h.root]

/-- Expanding the picked formulas of two leaves, one of them recast. -/
theorem Mirrors.install (hF : Faithful p Q ρ ε) (h : Mirrors p Q ρ ε a b) {l k : Label}
    {pre pre' post post' : List Formula} {f f' w w' : Formula} {m m' : Match} {s s' : Supply}
    {e e' : Expansion} {detail detail' after after' : String} (hs : a.supply.Numbered)
    (hall : l.All (Q a.supply.witnesses)) (hk : k.wordless = l.recast ρ ε)
    (hp : l.Picks pre f post m) (hp' : k.Picks pre' f' post' m')
    (hd : a.supply.draw p l.path f = (w, s)) (hd' : b.supply.draw p k.path f' = (w', s'))
    (hr : e.record = record (.node l []) m (a.step + 1) detail after (f.performed w))
    (hr' : e'.record = record (.node k []) m' (b.step + 1) detail' after' (f'.performed w'))
    (hx : Expanded l (a.step + 1) f m (pre ++ post) w s e.tree e.supply)
    (hx' : Expanded k (b.step + 1) f' m' (pre' ++ post') w' s' e'.tree e'.supply) :
    Mirrors p Q ρ ε { a.install l.id e with step := a.step + 1 }
      { b.install k.id e' with step := b.step + 1 } := by
  have hid : k.id = l.id := (congrArg Label.id hk :)
  have hpath : k.path = l.path := (congrArg Label.path hk :)
  have hmatch : m'.formula = .formula f' := hp'.formula_eq
  -- the same formula is picked and the same witness drawn
  obtain ⟨rfl, rfl, rfl, hrule⟩ := hp.recast hk hp'
  rw [hpath] at hd'
  obtain ⟨rfl, hnext, hminted, htable⟩ :=
    Supply.draw_recast hF hs h.nextId h.minted h.table (hp.all_picked hall) hd hd'
  have hs' : s.Numbered := hs.draw hd
  have hw : Witnessed p s.witnesses l.path f w := Supply.draw_witnessed hd
  have hperf := hF.performed_recast hs' hw
  -- the same leaves are closed
  have hall' : l.All (Q s.witnesses) := fun g hg => hF.kept.mono (Supply.draw_prefix hd) (hall g hg)
  have hclash : ∀ ps ∈ f.parts w,
      (contradiction? ((ps ++ (pre ++ post)).map (Formula.recast ρ ε))).isSome =
        (contradiction? (ps ++ (pre ++ post))).isSome := by
    intro ps hps
    refine contradiction?_recast (hF.apart s hs' _ ?_)
    exact (hF.kept.hereditary s hs').all_parts hp hw hall' hps
  rw [h.step, ← List.map_append] at hx'
  obtain ⟨htree, hnext'⟩ :=
    hx.recast hk ⟨hrule, hp.formula_eq, hmatch⟩ hnext hperf hclash hx'
  have hrecord : e'.record.wordless = e.record.wordless := by
    rw [hr, hr', hperf, h.step]
    unfold record Record.wordless
    simp only [Tree.label, Tree.id, hrule, hid, hpath]
  refine
    { root := ?_, log := ?_, nextId := hnext', minted := ?_, table := ?_, step := by rw [h.step]
      halted := h.halted, reason := h.reason, limit := h.limit }
  · show (b.root.replace k.id e'.tree).relabel _ = (a.root.replace l.id e.tree).relabel _
    rw [Tree.relabel_replace Label.id_wordless, Tree.relabel_replace Label.id_recast, h.root, htree,
      hid]
  · show (b.log ++ [e'.record]).map _ = (a.log ++ [e.record]).map _
    rw [List.map_append, List.map_append, h.log, List.map_singleton, List.map_singleton, hrecord]
  · show e'.supply.minted = e.supply.minted
    rw [hx.minted_eq, hx'.minted_eq, hminted]
  · show Table.Mirrors p (Q e.supply.witnesses) ρ ε e.supply.witnesses e'.supply.witnesses
    rw [hx.witnesses_eq, hx'.witnesses_eq]
    exact htable

/-- **A step of both attempts keeps one the mirror of the other.** -/
theorem Mirrors.advance (hF : Faithful p Q ρ ε) (h0 : Q [] goal.negate)
    (ha : Reachable goal n p a) (hb : Reachable (goal.recast ρ ε) n p b) (h : Mirrors p Q ρ ε a b)
    (hadv : a.Advances a' o) (hadv' : b.Advances b' o') : Mirrors p Q ρ ε a' b' := by
  obtain ⟨hcoh, hmax, hpol⟩ := ha.coherent
  obtain ⟨-, hmax', hpol'⟩ := hb.coherent
  have hsearch := h.next?_eq
  have hstep := h.step
  cases hadv with
  | exhausted hn =>
    rw [hn] at hsearch
    cases hadv' with
    | exhausted hn' => exact { h with halted := rfl, reason := rfl }
    | limit hn' => rw [hn'] at hsearch; cases hsearch
    | applied hn' => rw [hn'] at hsearch; cases hsearch
  | limit hn hl hs =>
    rw [hn] at hsearch
    rw [hmax] at hl
    cases hl
    cases hadv' with
    | exhausted hn' => rw [hn'] at hsearch; cases hsearch
    | limit hn' => exact { h with halted := rfl, reason := rfl, limit := rfl }
    | applied hn' hl' hs' =>
      rw [hmax'] at hl'
      cases hl'
      omega
  | @applied l pre post f w m s e _ detail after hn hl hs hmem hp hd hr hx =>
    rw [hn] at hsearch
    rw [hmax] at hl
    cases hl
    cases hadv' with
    | exhausted hn' => rw [hn'] at hsearch; cases hsearch
    | limit hn' hl' hs' =>
      rw [hmax'] at hl'
      cases hl'
      omega
    | @applied k pre' post' f' w' m' s' e' _ detail' after' hn' hl' hs' hmem' hp' hd' hr' hx' =>
      rw [hn'] at hsearch
      have hk : k.wordless = l.recast ρ ε := by
        simpa [Tree.relabel_node] using hsearch
      have hall : l.All (Q a.supply.witnesses) := by
        subst hpol
        exact hcoh.grown.all_of_next? (hF.kept.hereditary _ hcoh.numbered)
          (rootLabel_all_kept hF.kept h0 _) hn
      rw [hpol] at hd
      rw [hpol'] at hd'
      exact h.install hF hcoh.numbered hall hk hp hp' hd hd' hr hr' hx hx'

/-- **Any number of steps keeps one attempt the mirror of the other.** -/
theorem Mirrors.runFor (hF : Faithful p Q ρ ε) (h0 : Q [] goal.negate) (k : Nat)
    (ha : Reachable goal n p a) (hb : Reachable (goal.recast ρ ε) n p b)
    (h : Mirrors p Q ρ ε a b) : Mirrors p Q ρ ε (runFor k a).attempt (runFor k b).attempt := by
  induction k generalizing a b with
  | zero => exact h
  | succ k ih =>
    cases hh : a.halted with
    | true =>
      have hh' : b.halted = true := h.halted.trans hh
      rw [runFor_of_halted _ hh, runFor_of_halted _ hh']
      exact h
    | false =>
      have hh' : b.halted = false := h.halted.trans hh
      obtain ⟨a', o, hstep, hadv⟩ := ha.exists_advance
      obtain ⟨b', o', hstep', hadv'⟩ := hb.exists_advance
      rw [runFor_succ k hh hstep, runFor_succ k hh' hstep']
      exact ih (ha.step hstep) (hb.step hstep') (h.advance hF h0 ha hb hadv hadv')

/-- The same branches are closed. -/
theorem Mirrors.isValid_eq {goal goal' : Formula} (h : Mirrors p Q ρ ε a b) (ha : a.Coherent goal)
    (hb : b.Coherent goal') : b.verdict.isValid = a.verdict.isValid := by
  have hleaves : b.root.leaves.map Label.closed = a.root.leaves.map Label.closed := by
    have hmap := congrArg (fun t => t.leaves.map Label.closed) h.root
    simp only [Tree.leaves_relabel, List.map_map] at hmap
    exact hmap
  rw [Bool.eq_iff_iff, hb.isValid_iff, ha.isValid_iff]
  have hclosed : ∀ t : Tree, (∀ k ∈ t.leaves, k.closed = true) ↔
      ∀ c ∈ t.leaves.map Label.closed, c = true := by
    intro t
    rw [List.forall_mem_map]
  rw [hclosed, hclosed, hleaves]

theorem Mirrors.inconclusive_eq {goal goal' : Formula} (h : Mirrors p Q ρ ε a b)
    (ha : a.Coherent goal) (hb : b.Coherent goal') :
    b.verdict.inconclusive = a.verdict.inconclusive := by
  have hlimit : b.verdict.stepLimitReached = a.verdict.stepLimitReached := h.limit
  rw [Verdict.inconclusive, Verdict.inconclusive, hlimit, h.isValid_eq ha hb]

/-- **The two runs end as mirrors of each other.** -/
theorem Mirrors.run (hF : Faithful p Q ρ ε) (h0 : Q [] goal.negate) :
    Mirrors p Q ρ ε (Attempt.initial goal (.steps n) p).run.attempt
      (Attempt.initial (goal.recast ρ ε) (.steps n) p).run.attempt :=
  Mirrors.runFor hF h0 _ .initial .initial (.initial goal n p)

end Attempt

end Refutation
