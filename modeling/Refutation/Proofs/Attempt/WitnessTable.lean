import Refutation.Proofs.Attempt.Freshness

/-!
# The table of witnesses

The table only gets longer, by one entry at a time and under a key that is new. So a key keeps its
witness, and an instantiation that the log tells or a node carries is one of the table ever after,
whatever is done on other branches. Under the name policy its key is the variable itself, so that
no variable has two witnesses in one run.

* `Reachable.nodup_keys`: no key stands in the table twice.
* `Reachable.drawn`: every instantiation is one of the table.
* `Reachable.witness_table`: **the table of every attempt that can be reached numbers its keys, later
  steps leave its entries alone, and every instantiation told is one of its entries.**
-/

namespace Refutation

/-- A variable and a constant that stands in the table, under the name policy as the witness of
that variable. -/
def Instantiation.Drawn (p : WitnessPolicy) (ws : Table) (i : Instantiation) : Prop :=
  ∃ x c key τ, i = .of (some x) c ∧ ws.lookup key = some (.const c τ) ∧
    (p = .byName → key = some x)

namespace Attempt

/-- The instantiations that the log tells and those that the nodes carry. -/
def instantiations (a : Attempt) : List Instantiation :=
  a.log.flatMap Record.instantiations ++ a.root.nodes.flatMap fun u => u.label.instantiations

end Attempt

/-! ## Keys -/

section

variable {p : WitnessPolicy} {ws ws' : Table} {s s' : Supply} {path : List String} {f w : Formula}
  {i : Instantiation}

/-- Where no key occurs twice, every entry is found by its key. -/
theorem lookup_of_mem_table {key : Option String} (hnd : (ws.map Prod.fst).Nodup)
    (h : (key, w) ∈ ws) : ws.lookup key = some w := by
  obtain ⟨before, after, rfl⟩ := List.append_of_mem h
  refine List.lookup_eq_some_iff.2 ⟨before, after, rfl, fun e he => ?_⟩
  rw [List.map_append, List.map_cons, List.nodup_append] at hnd
  have hne : e.1 ≠ key := hnd.2.2 e.1 (List.mem_map_of_mem he) key List.mem_cons_self
  exact bne_iff_ne.2 hne.symm

/-- Drawing a witness adds no key that is there already. -/
theorem Supply.nodup_keys_draw (hnd : (s.witnesses.map Prod.fst).Nodup)
    (hd : s.draw p path f = (w, s')) : (s'.witnesses.map Prod.fst).Nodup := by
  rcases Supply.draw_cases hd with ⟨-, rfl⟩ | ⟨x, τ, -, ⟨-, rfl⟩ | ⟨hnone, -, rfl⟩⟩
  · exact hnd
  · exact hnd
  · rw [List.map_append, List.nodup_append]
    refine ⟨hnd, List.nodup_singleton _, fun key hkey key' hkey' => ?_⟩
    obtain ⟨e, he, rfl⟩ := List.mem_map.1 hkey
    rw [List.map_singleton, List.mem_singleton] at hkey'
    have hne := bne_iff_ne.1 (List.lookup_eq_none_iff.1 hnone e he)
    rw [hkey']
    exact hne.symm

/-- Two keys with one constant are the same key. -/
theorem Supply.Numbered.key_eq (hs : s.Numbered) {key key' : Option String} {c : String} {τ τ' : Ty}
    (h : s.witnesses.lookup key = some (.const c τ))
    (h' : s.witnesses.lookup key' = some (.const c τ')) : key = key' := by
  obtain ⟨i, σ, -, hi, hc⟩ := hs.const_of_lookup h
  obtain ⟨j, σ', -, hj, hc'⟩ := hs.const_of_lookup h'
  cases hc
  -- the constant tells the place of its key
  have hname : Supply.witnessName (i + 1) = Supply.witnessName (j + 1) :=
    (Formula.const.inj hc').1
  have hij := Supply.witnessName_injective (by omega) (by omega) hname
  have hij' : i = j := by omega
  rw [hij', hj] at hi
  exact (Prod.mk.inj (Option.some.inj hi)).1.symm

/-! ## Instantiations -/

theorem Instantiation.Drawn.mono (h : i.Drawn p ws) (hws : ws <+: ws') : i.Drawn p ws' := by
  obtain ⟨x, c, key, τ, hi, hlook, hkey⟩ := h
  exact ⟨x, c, key, τ, hi, hws.lookup_eq_some hlook, hkey⟩

/-- What an expansion with the witness of the table performs is an entry of the table. -/
theorem Supply.Numbered.drawn_performed (hs : s.Numbered) (hw : Witnessed p s.witnesses path f w)
    (hi : i ∈ f.performed w) : i.Drawn p s.witnesses := by
  unfold Formula.performed at hi
  cases hb : f.binding? with
  | none => rw [hb] at hi; cases hi
  | some b =>
    obtain ⟨x, τ⟩ := b
    have hlook := hw x τ hb
    obtain ⟨j, σ, -, -, rfl⟩ := hs.const_of_lookup hlook
    rw [hb] at hi
    obtain rfl := List.mem_singleton.1 hi
    refine ⟨x, _, _, σ, rfl, hlook, fun hp => ?_⟩
    rw [hp]
    rfl

/-- What the root carries and every expansion performs is all that the nodes carry. -/
theorem Grown.carries {log : List Record} {l : Label} {t u : Tree} {I : Instantiation → Prop}
    (h : Grown p ws log l t) (hl : ∀ i ∈ l.instantiations, I i)
    (hperf : ∀ path f w, Witnessed p ws path f w → ∀ i ∈ f.performed w, I i)
    (hu : u ∈ t.nodes) : ∀ i ∈ u.label.instantiations, I i := by
  refine h.of_mem_nodes (D := fun l => ∀ i ∈ l.instantiations, I i) (fun l k hl hs => ?_) hl hu
  obtain ⟨hp, hw, -, -, hsame | hmore⟩ := hs
  · rw [hsame]
    exact hl
  · rw [hmore]
    exact List.forall_mem_append.2 ⟨hl, hperf l.path _ _ hw⟩

end

namespace Attempt

variable {goal : Formula} {a b : Attempt} {o : Outcome} {n : Int} {p : WitnessPolicy}

/-- **No key stands in the table twice.** -/
theorem Reachable.nodup_keys (h : Reachable goal n p a) :
    (a.supply.witnesses.map Prod.fst).Nodup := by
  refine h.invariant (P := fun a => (a.supply.witnesses.map Prod.fst).Nodup) List.nodup_nil ?_
  intro a b o _ ih hadv
  cases hadv with
  | exhausted hn => exact ih
  | limit hn hl hs => exact ih
  | @applied l pre post f w m s e _ detail after hn hl hs hmem hp hd hr hx =>
    show (e.supply.witnesses.map Prod.fst).Nodup
    rw [hx.witnesses_eq]
    exact Supply.nodup_keys_draw ih hd

/-- What the log tells was drawn from the table. -/
theorem Reachable.drawn_of_log (h : Reachable goal n p a) {r : Record} (hr : r ∈ a.log)
    {i : Instantiation} (hi : i ∈ r.instantiations) : i.Drawn p a.supply.witnesses := by
  refine h.invariant
    (P := fun a => ∀ r ∈ a.log, ∀ i ∈ r.instantiations, i.Drawn p a.supply.witnesses)
    (fun r hr => by cases hr) ?_ r hr i hi
  intro a b o hreach ih hadv r hr i hi
  have hws := hadv.witnesses_prefix
  have hb : b.supply.Numbered := (hreach.coherent.1.of_advances hadv).numbered
  obtain ⟨-, -, rfl⟩ := hreach.coherent
  cases hadv with
  | exhausted hn => exact ih r hr i hi
  | limit hn hl hs => exact ih r hr i hi
  | @applied l pre post f w m s e _ detail after hn hl hs hmem hp hd hrec hx =>
    rcases List.mem_append.1 hr with hr | hr
    · exact (ih r hr i hi).mono hws
    · -- the new record tells of the witness that was drawn
      obtain rfl := List.mem_singleton.1 hr
      rw [hrec] at hi
      have hw : Witnessed a.policy e.supply.witnesses l.path f w := by
        rw [hx.witnesses_eq]
        exact Supply.draw_witnessed hd
      exact hb.drawn_performed hw hi

/-- **Every instantiation that the log tells or a node carries is one of the table.** -/
theorem Reachable.drawn (h : Reachable goal n p a) {i : Instantiation} (hi : i ∈ a.instantiations) :
    i.Drawn p a.supply.witnesses := by
  rcases List.mem_append.1 hi with hi | hi
  · obtain ⟨r, hr, hi⟩ := List.mem_flatMap.1 hi
    exact h.drawn_of_log hr hi
  · obtain ⟨u, hu, hi⟩ := List.mem_flatMap.1 hi
    obtain ⟨hcoh, -, rfl⟩ := h.coherent
    refine hcoh.grown.carries (fun i hi => by cases hi) ?_ hu i hi
    exact fun path f w hw i hi => hcoh.numbered.drawn_performed hw hi

/-- One variable has one witness in all attempts of a run under the name policy. -/
theorem Reachable.witness_unique (h : Reachable goal n .byName a) (hb : Reachable goal n .byName b)
    {x c c' : String} (hc : .of (some x) c ∈ a.instantiations)
    (hc' : .of (some x) c' ∈ b.instantiations) : c = c' := by
  -- both witnesses stand in the table at the end of the run, under the name of the variable
  have hfind : ∀ {a c}, Reachable goal n .byName a → .of (some x) c ∈ a.instantiations →
      ∃ τ, (Attempt.initial goal (.steps n) .byName).run.attempt.supply.witnesses.lookup (some x) =
        some (.const c τ) := by
    intro a c h hc
    obtain ⟨y, d, key, τ, hi, hlook, hkey⟩ := (h.drawn hc).mono h.witnesses_prefix_run
    cases hi
    rw [hkey rfl] at hlook
    exact ⟨τ, hlook⟩
  obtain ⟨τ, hτ⟩ := hfind h hc
  obtain ⟨σ, hσ⟩ := hfind hb hc'
  rw [hτ] at hσ
  cases hσ
  rfl

/-- **The table of witnesses.** It counts what was minted, no key stands in it twice, and the witness
under its `k`-th key is the constant `ck`, so that different keys have different constants. Later
steps neither change nor remove an entry. Every instantiation that the log tells or a node carries
names a constant of the table, under the name policy the one of its variable, so that a variable has
one witness throughout the run. -/
theorem Reachable.witness_table (h : Reachable goal n p a) :
    a.supply.minted = a.supply.witnesses.length ∧
    (a.supply.witnesses.map Prod.fst).Nodup ∧
    (∀ (i : Nat) key c, a.supply.witnesses[i]? = some (key, c) →
      a.supply.witnesses.lookup key = some c ∧ ∃ τ, c = .const (Supply.witnessName (i + 1)) τ) ∧
    (∀ key key' c τ τ', a.supply.witnesses.lookup key = some (.const c τ) →
      a.supply.witnesses.lookup key' = some (.const c τ') → key = key') ∧
    (∀ b, a.LeadsTo b → a.supply.witnesses <+: b.supply.witnesses ∧
      ∀ key c, a.supply.witnesses.lookup key = some c → b.supply.witnesses.lookup key = some c) ∧
    (∀ i ∈ a.instantiations, ∃ x c key τ, i = .of (some x) c ∧
      a.supply.witnesses.lookup key = some (.const c τ) ∧ (p = .byName → key = some x)) ∧
    (p = .byName → ∀ b, Reachable goal n p b → ∀ x c c', .of (some x) c ∈ a.instantiations →
      .of (some x) c' ∈ b.instantiations → c = c') := by
  have hnumbered := h.coherent.1.numbered
  have hkeys := h.nodup_keys
  refine ⟨hnumbered.minted, hkeys, fun i key c hi => ⟨?_, hnumbered.names i key c hi⟩,
    fun _ _ _ _ _ hc hc' => hnumbered.key_eq hc hc', fun b hl => ?_, fun i hi => h.drawn hi, ?_⟩
  · exact lookup_of_mem_table hkeys (List.mem_of_getElem? hi)
  · have hws := h.witnesses_prefix_of_leadsTo hl
    exact ⟨hws, fun key c hc => hws.lookup_eq_some hc⟩
  · rintro rfl b hb x c c' hc hc'
    exact h.witness_unique hb hc hc'

/-- `x` is bound twice and `y` between: two witnesses, and both times the same one for `x`. -/
theorem Reachable.witness_table_rebound :
    let P : Formula := .const "P" (.fn .individual .truth)
    let goal : Formula := .not (.ex "x" .individual (.ex "y" .individual (.ex "x" .individual
      (.app P (.var "x" .individual)))))
    let a := (Attempt.initial goal (.steps 5) .byName).run.attempt
    Reachable goal 5 .byName a ∧
      a.log.flatMap Record.instantiations =
        [.of (some "x") "c1", .of (some "y") "c2", .of (some "x") "c1"] ∧
      a.supply.minted = 2 ∧ a.supply.witnesses.length = 2 ∧
      (∃ τ, a.supply.witnesses.lookup (some "x") = some (.const "c1" τ)) ∧
      ∀ c, .of (some "x") c ∈ a.instantiations → c = "c1" := by
  intro P goal a
  have hreach : Reachable goal 5 .byName a := (run_spec goal 5 .byName).1
  have hrun : (fun a : Attempt => (a.log.flatMap Record.instantiations, a.supply.minted)) a =
      ([.of (some "x") "c1", .of (some "y") "c2", .of (some "x") "c1"], 2) := by
    unfold a
    cbv
  obtain ⟨hlog, hminted⟩ := Prod.mk.inj hrun
  clear_value a
  obtain ⟨hcount, -, -, -, -, hdrawn, hone⟩ := hreach.witness_table
  have hx : .of (some "x") "c1" ∈ a.instantiations := by
    rw [Attempt.instantiations, hlog]
    exact List.mem_append_left _ List.mem_cons_self
  obtain ⟨y, d, key, τ, hi, hlook, hkey⟩ := hdrawn _ hx
  cases hi
  rw [hkey rfl] at hlook
  refine ⟨hreach, hlog, hminted, by omega, ⟨τ, hlook⟩, ?_⟩
  exact fun c hc => hone rfl a hreach "x" c "c1" hc hx

end Attempt

end Refutation
