import Mathlib.Computability.Primrec.List
import Refutation.Proofs.Attempt.Expand
import Refutation.Proofs.Closure
import Refutation.Proofs.Tree.Graft

/-!
# How proof trees grow

`Grown p ws log l t` says that the tree `t` grew from a leaf with the label `l`: at each
node the first formula with a rule was expanded, with a witness from the table `ws`, and
the step is in the log. It speaks of the finished tree only, so what a proof tree means is
shown by induction on it:

* `Grown.refutes`: **if every leaf is closed, the formulas at the root are not all true**,
  for any notion of truth that passes from a formula to some branch of its expansion.
* `Grown.affirms`: **if the formulas of an open leaf are all true, so are those at the
  root**, for any notion of truth that passes back from the expansions above that leaf.

That every tree of a run grows so is shown by `Grown.graft`: what is put in place of a leaf
need only have grown from it.
-/

namespace Refutation

-- Runs are evaluated with the equations of `List.lookup`, which come with `Primrec.List`.
/-- Witnesses by key. -/
abbrev Table := List (Option String × Formula)

/-- A label that holds formulas and is closed exactly if they are contradictory. -/
structure Label.Settled (l : Label) (fs : List Formula) : Prop where
  formulas : l.formulas = fs.map .formula
  closed : l.closed = (contradiction? fs).isSome
  reason : l.closureReason = contradiction? fs
  status : l.status = if l.closed then .closedLeaf else .openLeaf

/-- All formulas of a label have a property. -/
def Label.All (Q : Formula → Prop) (l : Label) : Prop :=
  ∀ f, .formula f ∈ l.formulas → Q f

/-- The witness for a formula is the one in the table, if the formula binds a variable. -/
def Witnessed (p : WitnessPolicy) (ws : Table) (path : List String) (f w : Formula) : Prop :=
  ∀ x τ, f.binding? = some (x, τ) → ws.lookup (p.key (some x) f.text path) = some w

/-- The log tells that a rule was applied to a node. -/
def Logged (log : List Record) (id : Int) (r : Rule) : Prop :=
  ∃ e ∈ log, e.nodeId = id ∧ e.rule = r.name

/-- A property that expansions with the witnesses of a table keep. -/
def Hereditary (p : WitnessPolicy) (ws : Table) (Q : Formula → Prop) : Prop :=
  ∀ f w path, Q f → Witnessed p ws path f w → ∀ ps ∈ f.parts w, ∀ g ∈ ps, Q g

open Expand

/-- The tree grew from a leaf with this label. -/
inductive Grown (p : WitnessPolicy) (ws : Table) (log : List Record) : Label → Tree → Prop
  | leaf {l : Label} {fs : List Formula} (h : l.Settled fs) : Grown p ws log l (.node l [])
  | close {l : Label} {pre post ps : List Formula} {f w : Formula} {m : Match} {num : Int}
      {reason : String} (hp : l.Picks pre f post m) (hw : Witnessed p ws l.path f w)
      (hl : Logged log l.id m.rule) (hps : f.parts w = [ps])
      (hc : contradiction? (ps ++ (pre ++ post)) = some reason) :
      Grown p ws log l (.node (closedLabel l m num ((ps ++ (pre ++ post)).map .formula) reason
        (l.instantiations ++ f.performed w)) [])
  | extend {l : Label} {pre post ps : List Formula} {f w : Formula} {m : Match} {num id : Int}
      {t : Tree} (hp : l.Picks pre f post m) (hw : Witnessed p ws l.path f w)
      (hl : Logged log l.id m.rule) (hps : f.parts w = [ps])
      (ht : Grown p ws log (childLabel l m num id ((ps ++ (pre ++ post)).map .formula)
        (l.instantiations ++ f.performed w)) t) :
      Grown p ws log l (.node (expandedLabel l m num) [t])
  | branch {l : Label} {pre post as bs : List Formula} {f w : Formula} {m : Match} {num i j : Int}
      {t u : Tree} (hp : l.Picks pre f post m) (hw : Witnessed p ws l.path f w)
      (hl : Logged log l.id m.rule) (hps : f.parts w = [as, bs])
      (ht : Grown p ws log (branchLabel l m num i ((as ++ (pre ++ post)).map .formula) "left"
        (contradiction? (as ++ (pre ++ post)))) t)
      (hu : Grown p ws log (branchLabel l m num j ((bs ++ (pre ++ post)).map .formula) "right"
        (contradiction? (bs ++ (pre ++ post)))) u) :
      Grown p ws log l (.node (expandedLabel l m num) [t, u])

/-- Expanding a formula of the label `l` puts the label `k` on the tree: on the expanded node
itself, where it may have no formulas left, or on a child. -/
inductive Label.Spawns (p : WitnessPolicy) (ws : Table) (l k : Label) : Prop
  | intro {pre post : List Formula} {f w : Formula} {m : Match} (hp : l.Picks pre f post m)
      (hw : Witnessed p ws l.path f w) (origin : k.origin = some (.formula f))
      (formulas : k.formulas = [] ∨
        ∃ ps ∈ f.parts w, k.formulas = (ps ++ (pre ++ post)).map .formula)
      (insts : k.instantiations = l.instantiations ∨
        k.instantiations = l.instantiations ++ f.performed w)

variable {p : WitnessPolicy} {ws : Table} {log : List Record} {l : Label} {t : Tree}
  {Q S : Formula → Prop}

/-! ## Labels -/

theorem Label.all_map (fs : List Formula) (h : l.formulas = fs.map .formula) :
    l.All Q ↔ ∀ f ∈ fs, Q f := by
  unfold Label.All
  rw [h]
  simp

/-- A property of a label's formulas passes to what an expansion leaves. -/
theorem Label.Picks.all_parts {pre post ps : List Formula} {f : Formula} {m : Match}
    (hp : l.Picks pre f post m) (hl : l.All Q) (hps : ∀ g ∈ ps, Q g) :
    ∀ g ∈ ps ++ (pre ++ post), Q g := by
  rw [Label.all_map _ hp.formulas] at hl
  intro g hg
  rcases List.mem_append.1 hg with hg | hg
  · exact hps g hg
  · refine hl g ?_
    rw [List.mem_append, List.mem_cons]
    exact (List.mem_append.1 hg).imp_right Or.inr

theorem Label.Picks.all_picked {pre post : List Formula} {f : Formula} {m : Match}
    (hp : l.Picks pre f post m) (hl : l.All Q) : Q f :=
  hl f hp.mem

theorem Label.Picks.present_eq {pre post : List Formula} {f : Formula} {m : Match}
    (hp : l.Picks pre f post m) : m.formula.present = some (.formula f) := by
  rw [hp.formula_eq]
  rfl

theorem Label.Picks.shape_ne {pre post : List Formula} {f : Formula} {m : Match}
    (hp : l.Picks pre f post m) : f.shape ≠ .literal := by
  intro h
  have := Formula.match?_eq_none_iff.2 h
  rw [hp.expands] at this; cases this

/-- What holds of the picked formula and of what an expansion leaves holds of the label. -/
theorem Label.Picks.all_of_rest {pre post ps : List Formula} {f : Formula} {m : Match}
    (hp : l.Picks pre f post m) (hf : Q f) (hps : ∀ g ∈ ps ++ (pre ++ post), Q g) : l.All Q := by
  rw [Label.all_map _ hp.formulas]
  intro g hg
  rw [List.mem_append, List.mem_cons] at hg
  rcases hg with hg | rfl | hg
  · exact hps g (List.mem_append_right _ (List.mem_append_left _ hg))
  · exact hf
  · exact hps g (List.mem_append_right _ (List.mem_append_right _ hg))

theorem branchLabel_settled (m : Match) (num i : Int) (fs : List Formula) (turn : String) :
    (branchLabel l m num i (fs.map .formula) turn (contradiction? fs)).Settled fs := by
  unfold branchLabel
  cases h : contradiction? fs with
  | none => exact ⟨rfl, by rw [h]; rfl, by rw [h], rfl⟩
  | some r => exact ⟨rfl, by rw [h]; rfl, by rw [h], rfl⟩

theorem branchLabel_all {m : Match} {num i : Int} {fs : List Formula} {turn : String} :
    (branchLabel l m num i (fs.map .formula) turn (contradiction? fs)).All Q ↔ ∀ f ∈ fs, Q f :=
  Label.all_map fs (branchLabel_settled m num i fs turn).formulas

theorem childLabel_all {m : Match} {num i : Int} {fs : List Formula}
    {insts : List Instantiation} :
    (childLabel l m num i (fs.map .formula) insts).All Q ↔ ∀ f ∈ fs, Q f :=
  Label.all_map fs rfl

theorem branchLabel_spawned {pre post ps : List Formula} {f w : Formula} {m : Match}
    (hp : l.Picks pre f post m) (hw : Witnessed p ws l.path f w) (hps : ps ∈ f.parts w)
    (num i : Int) (turn : String) (reason : Option String) :
    l.Spawns p ws (branchLabel l m num i ((ps ++ (pre ++ post)).map .formula) turn reason) := by
  unfold branchLabel
  cases reason with
  | none => exact .intro hp hw hp.present_eq (Or.inr ⟨ps, hps, rfl⟩) (Or.inl rfl)
  | some r => exact .intro hp hw hp.present_eq (Or.inr ⟨ps, hps, rfl⟩) (Or.inl rfl)

/-- What expansions keep passes from a label to what its expansion leaves. -/
theorem Hereditary.all_parts {pre post ps : List Formula} {f w : Formula} {m : Match}
    (hQ : Hereditary p ws Q) (hp : l.Picks pre f post m) (hw : Witnessed p ws l.path f w)
    (hl : l.All Q) (hps : ps ∈ f.parts w) : ∀ g ∈ ps ++ (pre ++ post), Q g :=
  hp.all_parts hl (hQ f w l.path (hp.all_picked hl) hw ps hps)

/-- The search passes through an expanded node. -/
theorem next?_expanded {m : Match} {num : Int} {ts : List Tree} (ho : l.closed = false) :
    (Tree.node (expandedLabel l m num) ts).next? = Tree.nextIn? ts := by
  rw [Tree.next?]
  simp [expandedLabel, ho]

namespace Grown

/-! ## Growing -/

/-- A longer table and a longer log change nothing. -/
theorem mono {ws' : Table} {log' : List Record} (hws : ws <+: ws') (hlog : log ⊆ log')
    (h : Grown p ws log l t) : Grown p ws' log' l t := by
  have hw' : ∀ {path : List String} {f w : Formula}, Witnessed p ws path f w →
      Witnessed p ws' path f w := fun hw x τ hx => hws.lookup_eq_some (hw x τ hx)
  have hl' : ∀ {i : Int} {r : Rule}, Logged log i r → Logged log' i r := by
    rintro i r ⟨e, he, hir⟩
    exact ⟨e, hlog he, hir⟩
  induction h with
  | leaf h => exact .leaf h
  | close hp hw hl hps hc => exact .close hp (hw' hw) (hl' hl) hps hc
  | extend hp hw hl hps _ ih => exact .extend hp (hw' hw) (hl' hl) hps ih
  | branch hp hw hl hps _ _ iht ihu => exact .branch hp (hw' hw) (hl' hl) hps iht ihu

/-- An expansion grows from its leaf. -/
theorem of_expanded {pre post : List Formula} {f w : Formula} {m : Match} {num : Int}
    {s s' : Supply} (hp : l.Picks pre f post m) (hw : Witnessed p ws l.path f w)
    (hl : Logged log l.id m.rule) (h : Expanded l num f m (pre ++ post) w s t s') :
    Grown p ws log l t := by
  cases h with
  | close hps hc => exact .close hp hw hl hps hc
  | extend hps hc => exact .extend hp hw hl hps (.leaf ⟨rfl, by rw [hc]; rfl, by rw [hc]; rfl, rfl⟩)
  | branch hps =>
    exact .branch hp hw hl hps (.leaf (branchLabel_settled _ _ _ _ _))
      (.leaf (branchLabel_settled _ _ _ _ _))

/-- **A tree stays grown when a node gives way to what grew from the same label.** -/
theorem graft {u new t' : Tree} (hg : Tree.Graft u new t t') (h : Grown p ws log l t)
    (hnew : ∀ k, Grown p ws log k u → Grown p ws log k new) : Grown p ws log l t' := by
  induction hg generalizing l with
  | here => exact hnew l h
  | @inside k before after t t' _ ih =>
    generalize hts : before ++ t :: after = ts at h
    -- a node with children was expanded, so `t` is one of one or two children
    cases h with
    | leaf h => simp at hts
    | close hp hw hl hps hc => simp at hts
    | extend hp hw hl hps ht =>
      obtain ⟨rfl, rfl, rfl⟩ : before = [] ∧ t = _ ∧ after = [] := by
        simpa [List.append_eq_singleton_iff] using hts
      exact .extend hp hw hl hps (ih ht)
    | branch hp hw hl hps ht hu =>
      cases before with
      | nil =>
        simp only [List.nil_append, List.cons.injEq] at hts
        obtain ⟨rfl, rfl⟩ := hts
        exact .branch hp hw hl hps (ih ht) hu
      | cons b bs =>
        obtain ⟨rfl, rfl, rfl, rfl⟩ : b = _ ∧ bs = [] ∧ t = _ ∧ after = [] := by
          simpa [List.append_eq_singleton_iff] using hts
        exact .branch hp hw hl hps ht (ih hu)

/-- An open leaf grew from its own label only. -/
theorem eq_of_open_leaf {k : Label} (h : Grown p ws log k (.node l [])) (ho : l.closed = false) :
    k = l := by
  cases h with
  | leaf h => rfl
  | close hp hw hl hps hc => cases ho

/-- **What the first label has and every label passes on to those it spawns, all labels of the tree
have.** -/
theorem of_mem_nodes {D : Label → Prop} {u : Tree} (h : Grown p ws log l t)
    (hD : ∀ l k, D l → l.Spawns p ws k → D k) (hl : D l) (hu : u ∈ t.nodes) : D u.label := by
  induction h with
  | leaf h =>
    obtain rfl := List.mem_singleton.1 hu
    exact hl
  | @close l pre post ps f w m num reason hp hw _ hps hc =>
    obtain rfl := List.mem_singleton.1 hu
    exact hD _ _ hl (.intro hp hw hp.present_eq (Or.inr ⟨ps, by simp [hps], rfl⟩) (Or.inr rfl))
  | @extend l pre post ps f w m num id t hp hw _ hps ht ih =>
    have hmem : u = .node (expandedLabel l m num) [t] ∨ u ∈ t.nodes := by
      simpa [Tree.nodes] using hu
    rcases hmem with rfl | hu
    · exact hD _ _ hl (.intro hp hw hp.present_eq (Or.inl rfl) (Or.inl rfl))
    · refine ih (hD _ _ hl ?_) hu
      exact .intro hp hw hp.present_eq (Or.inr ⟨ps, by simp [hps], rfl⟩) (Or.inr rfl)
  | @branch l pre post as bs f w m num i j t u' hp hw _ hps ht hu' iht ihu =>
    have hmem : u = .node (expandedLabel l m num) [t, u'] ∨ u ∈ t.nodes ∨ u ∈ u'.nodes := by
      simpa [Tree.nodes] using hu
    rcases hmem with rfl | hu | hu
    · exact hD _ _ hl (.intro hp hw hp.present_eq (Or.inl rfl) (Or.inl rfl))
    · exact iht (hD _ _ hl (branchLabel_spawned hp hw (by simp [hps]) _ _ _ _)) hu
    · exact ihu (hD _ _ hl (branchLabel_spawned hp hw (by simp [hps]) _ _ _ _)) hu

/-! ## The search -/

/-- **The node found is an open leaf**, and the formula found the first with a rule on it. -/
theorem picks_of_next? {u : Tree} {m : Match} (h : Grown p ws log l t)
    (hn : t.next? = some (u, m)) :
    ∃ k pre f post, u = .node k [] ∧ u ∈ t.nodes ∧ k.Picks pre f post m := by
  induction h with
  | @leaf l fs h =>
    rw [Tree.next?] at hn
    split at hn
    · cases hn
    · rename_i ho
      split at hn
      · rename_i m' hm
        cases hn
        obtain ⟨pre, f, post, hp⟩ := exists_picks h.formulas (by simpa using ho) hm
        exact ⟨l, pre, f, post, rfl, Tree.mem_nodes_self _, hp⟩
      · cases hn
  | close hp hw hl hps hc => simp [Tree.next?, closedLabel] at hn
  | @extend l pre post ps f w m' num id t hp hw hl hps ht ih =>
    rw [next?_expanded hp.opened, Tree.nextIn?, Tree.nextIn?, Option.or_none] at hn
    obtain ⟨k, pre, f, post, hu, hmem, hk⟩ := ih hn
    exact ⟨k, pre, f, post, hu, by simp [Tree.nodes, hmem], hk⟩
  | @branch l pre post as bs f w m' num i j t u hp hw hl hps ht hu iht ihu =>
    rw [next?_expanded hp.opened, Tree.nextIn?, Tree.nextIn?, Tree.nextIn?, Option.or_none,
      Option.or_eq_some_iff] at hn
    rcases hn with hn | ⟨-, hn⟩
    · obtain ⟨k, pre, f, post, hu, hmem, hk⟩ := iht hn
      exact ⟨k, pre, f, post, hu, by simp [Tree.nodes, hmem], hk⟩
    · obtain ⟨k, pre, f, post, hu, hmem, hk⟩ := ihu hn
      exact ⟨k, pre, f, post, hu, by simp [Tree.nodes, hmem], hk⟩

/-- What expansions keep holds of the formulas of every leaf. -/
theorem all_of_leaf {k : Label} (hQ : Hereditary p ws Q) (h : Grown p ws log l t) (hl : l.All Q)
    (hk : k ∈ t.leaves) : k.All Q := by
  induction h with
  | leaf h =>
    simp only [Tree.leaves, List.mem_singleton] at hk
    exact hk ▸ hl
  | @close l pre post ps f w m num reason hp hw _ hps hc =>
    simp only [Tree.leaves, List.mem_singleton] at hk
    subst hk
    rw [Label.all_map (ps ++ (pre ++ post)) rfl]
    exact hQ.all_parts hp hw hl (by simp [hps])
  | @extend l pre post ps f w m num id t hp hw _ hps ht ih =>
    have hchild := hQ.all_parts hp hw hl (show ps ∈ f.parts w by simp [hps])
    exact ih (childLabel_all.2 hchild) (by simpa [Tree.leaves] using hk)
  | @branch l pre post as bs f w m num i j t u hp hw _ hps ht hu iht ihu =>
    have hleft := hQ.all_parts hp hw hl (show as ∈ f.parts w by simp [hps])
    have hright := hQ.all_parts hp hw hl (show bs ∈ f.parts w by simp [hps])
    have hk' : k ∈ t.leaves ∨ k ∈ u.leaves := by simpa [Tree.leaves] using hk
    exact hk'.elim (iht (branchLabel_all.2 hleft)) (ihu (branchLabel_all.2 hright))

/-- An open leaf is settled: what it holds is not contradictory. -/
theorem settled_of_open {k : Label} (h : Grown p ws log l t) (hk : k ∈ t.leaves)
    (ho : k.closed = false) : ∃ fs, k.Settled fs ∧ contradiction? fs = none := by
  induction h with
  | @leaf l fs h =>
    simp only [Tree.leaves, List.mem_singleton] at hk
    subst hk
    have hc := h.closed
    rw [ho] at hc
    exact ⟨fs, h, by simpa using hc.symm⟩
  | close hp hw _ hps hc =>
    simp only [Tree.leaves, List.mem_singleton] at hk
    subst hk; cases ho
  | extend hp hw _ hps ht ih => exact ih (by simpa [Tree.leaves] using hk)
  | @branch l pre post as bs f w m num i j t u hp hw _ hps ht hu iht ihu =>
    have hk' : k ∈ t.leaves ∨ k ∈ u.leaves := by simpa [Tree.leaves] using hk
    exact hk'.elim iht ihu

/-- What expansions keep holds of the formulas of the node found. -/
theorem all_of_next? {u : Tree} {m : Match} (hQ : Hereditary p ws Q) (h : Grown p ws log l t)
    (hl : l.All Q) (hn : t.next? = some (u, m)) : u.label.All Q := by
  obtain ⟨k, pre, f, post, rfl, hu, -⟩ := h.picks_of_next? hn
  exact h.all_of_leaf hQ hl (Tree.mem_leaves_of_mem_nodes hu)

/-- Where nothing is found, the formulas of every open leaf are literals. -/
theorem inert_of_next? {k : Label} (h : Grown p ws log l t) (hn : t.next? = none)
    (hk : k ∈ t.leaves) (ho : k.closed = false) : ∀ e ∈ k.formulas, e.match? = none := by
  induction h with
  | @leaf l fs h =>
    simp only [Tree.leaves, List.mem_singleton] at hk
    subst hk
    rw [Tree.next?, ho] at hn
    simp only [Bool.false_eq_true, if_false] at hn
    split at hn
    · cases hn
    · rename_i hm
      exact List.findSome?_eq_none_iff.1 hm
  | close hp hw _ hps hc =>
    simp only [Tree.leaves, List.mem_singleton] at hk
    subst hk; cases ho
  | @extend l pre post ps f w m' num id t hp hw _ hps ht ih =>
    rw [next?_expanded hp.opened, Tree.nextIn?, Tree.nextIn?, Option.or_none] at hn
    exact ih hn (by simpa [Tree.leaves] using hk)
  | @branch l pre post as bs f w m' num i j t u hp hw _ hps ht hu iht ihu =>
    rw [next?_expanded hp.opened, Tree.nextIn?, Tree.nextIn?, Tree.nextIn?, Option.or_none,
      Option.or_eq_none_iff] at hn
    have hk' : k ∈ t.leaves ∨ k ∈ u.leaves := by simpa [Tree.leaves] using hk
    rcases hk' with hk | hk
    · exact iht hn.1 hk
    · exact ihu hn.2 hk

/-- A grown tree shows its shape already. -/
theorem classify_eq (h : Grown p ws log l t) : t.classify = t := by
  induction h with
  | @leaf l fs h =>
    rw [Tree.classify, ← h.status]
  | close hp hw _ hps hc => rfl
  | extend hp hw _ hps ht ih => simp [Tree.classify, ih, expandedLabel]
  | branch hp hw _ hps ht hu iht ihu => simp [Tree.classify, iht, ihu, expandedLabel]

/-! ## What a tree means -/

/-- **If every leaf is closed, the formulas at the root are not all true.** Truth has to
pass from a formula to some branch of its expansion, and no contradictory formulas may be
true together; `Q` is what the formulas at hand are known to satisfy. -/
theorem refutes (hQ : Hereditary p ws Q)
    (hdown : ∀ f w path, Q f → f.shape ≠ .literal → Witnessed p ws path f w → S f →
      ∃ ps ∈ f.parts w, ∀ g ∈ ps, S g)
    (hclash : ∀ fs, (∀ f ∈ fs, Q f) → (contradiction? fs).isSome → ¬ ∀ f ∈ fs, S f)
    (h : Grown p ws log l t) (hl : l.All Q) (hclosed : ∀ k ∈ t.leaves, k.closed) :
    ¬ l.All S := by
  induction h with
  | @leaf l fs h =>
    have hc := hclosed l (by simp [Tree.leaves])
    rw [h.closed] at hc
    rw [Label.all_map _ h.formulas] at hl ⊢
    exact hclash fs hl hc
  | @close l pre post ps f w m num reason hp hw _ hps hc =>
    intro hS
    have hparts := hQ.all_parts hp hw hl (show ps ∈ f.parts w by simp [hps])
    obtain ⟨qs, hqs, hSq⟩ := hdown f w l.path (hp.all_picked hl) hp.shape_ne hw (hp.all_picked hS)
    rw [hps, List.mem_singleton] at hqs; subst hqs
    exact hclash _ hparts (by rw [hc]; rfl) (hp.all_parts hS hSq)
  | @extend l pre post ps f w m num id t hp hw _ hps ht ih =>
    intro hS
    have hparts := hQ.all_parts hp hw hl (show ps ∈ f.parts w by simp [hps])
    obtain ⟨qs, hqs, hSq⟩ := hdown f w l.path (hp.all_picked hl) hp.shape_ne hw (hp.all_picked hS)
    rw [hps, List.mem_singleton] at hqs; subst hqs
    refine ih (childLabel_all.2 hparts) ?_ (childLabel_all.2 (hp.all_parts hS hSq))
    exact fun k hk => hclosed k (by simpa [Tree.leaves] using hk)
  | @branch l pre post as bs f w m num i j t u hp hw _ hps ht hu iht ihu =>
    intro hS
    have hleft := hQ.all_parts hp hw hl (show as ∈ f.parts w by simp [hps])
    have hright := hQ.all_parts hp hw hl (show bs ∈ f.parts w by simp [hps])
    obtain ⟨qs, hqs, hSq⟩ := hdown f w l.path (hp.all_picked hl) hp.shape_ne hw (hp.all_picked hS)
    -- truth goes on along one of the two branches
    rw [hps] at hqs
    simp only [List.mem_cons, List.not_mem_nil, or_false] at hqs
    rcases hqs with rfl | rfl
    · refine iht (branchLabel_all.2 hleft) ?_ (branchLabel_all.2 (hp.all_parts hS hSq))
      exact fun k hk => hclosed k (by simp [Tree.leaves, hk])
    · refine ihu (branchLabel_all.2 hright) ?_ (branchLabel_all.2 (hp.all_parts hS hSq))
      exact fun k hk => hclosed k (by simp [Tree.leaves, hk])

/-- **If the formulas of an open leaf are all true, so are those at the root.** Truth has to
pass back to a formula from each branch of its expansion, for the expansions above the
leaf. -/
theorem affirms {ls : List Label} {k : Label} (h : Grown p ws log l t)
    (hb : t.HasBranch ls k) (ho : k.closed = false) (hS : k.All S)
    (hup : ∀ f w path m, f.match? = some m → Witnessed p ws path f w →
      (∃ a ∈ ls, Logged log a.id m.rule) → (∃ ps ∈ f.parts w, ∀ g ∈ ps, S g) → S f) :
    l.All S := by
  induction h generalizing ls with
  | leaf h => cases hb with
    | leaf => exact hS
    | child _ ht _ => cases ht
  | close hp hw _ hps hc => cases hb with
    | leaf => cases ho
    | child _ ht _ => cases ht
  | @extend l pre post ps f w m num id t hp hw hlog hps ht ih => cases hb with
    | @child t' _ ls _ _ ht' hb =>
      rw [List.mem_singleton] at ht'; subst ht'
      have hchild := ih hb fun f w path m hm hw' hlog' =>
        hup f w path m hm hw' (by obtain ⟨a, ha, hla⟩ := hlog'; exact ⟨a, List.mem_cons_of_mem _ ha, hla⟩)
      rw [childLabel_all] at hchild
      refine hp.all_of_rest (hup f w l.path m hp.expands hw ?_ ⟨ps, by simp [hps], ?_⟩) hchild
      · exact ⟨_, List.mem_cons_self, hlog⟩
      · exact fun g hg => hchild g (List.mem_append_left _ hg)
  | @branch l pre post as bs f w m num i j t u hp hw hlog hps ht hu iht ihu => cases hb with
    | @child t' _ ls _ _ ht' hb =>
      have hup' : ∀ f w path m, f.match? = some m → Witnessed p ws path f w →
          (∃ a ∈ ls, Logged log a.id m.rule) → (∃ ps ∈ f.parts w, ∀ g ∈ ps, S g) → S f := by
        rintro f w path m hm hw' ⟨a, ha, hla⟩
        exact hup f w path m hm hw' ⟨a, List.mem_cons_of_mem _ ha, hla⟩
      have hself : ∃ a ∈ expandedLabel l m num :: ls, Logged log a.id m.rule :=
        ⟨_, List.mem_cons_self, hlog⟩
      simp only [List.mem_cons, List.not_mem_nil, or_false] at ht'
      rcases ht' with rfl | rfl
      · have hchild := iht hb hup'
        rw [branchLabel_all] at hchild
        refine hp.all_of_rest (hup f w l.path m hp.expands hw hself ⟨as, by simp [hps], ?_⟩) hchild
        exact fun g hg => hchild g (List.mem_append_left _ hg)
      · have hchild := ihu hb hup'
        rw [branchLabel_all] at hchild
        refine hp.all_of_rest (hup f w l.path m hp.expands hw hself ⟨bs, by simp [hps], ?_⟩) hchild
        exact fun g hg => hchild g (List.mem_append_left _ hg)

/-- The same with what expansions keep at hand. -/
theorem affirms_of_hereditary {ls : List Label} {k : Label} (hQ : Hereditary p ws Q)
    (h : Grown p ws log l t) (hl : l.All Q) (hb : t.HasBranch ls k) (ho : k.closed = false)
    (hS : k.All S)
    (hup : ∀ f w path m, Q f → f.match? = some m → Witnessed p ws path f w →
      (∃ a ∈ ls, Logged log a.id m.rule) → (∃ ps ∈ f.parts w, ∀ g ∈ ps, S g) → S f) :
    l.All S := by
  have hroot : l.All fun f => Q f → S f := by
    refine h.affirms hb ho (fun f hf _ => hS f hf) ?_
    rintro f w path m hm hw hlog ⟨ps, hps, hSp⟩ hq
    exact hup f w path m hq hm hw hlog
      ⟨ps, hps, fun g hg => hSp g hg (hQ f w path hq hw ps hps g hg)⟩
  exact fun f hf => hroot f hf (hl f hf)

end Grown

end Refutation
