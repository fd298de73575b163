import Mathlib.Data.List.Nodup
import Refutation.Attempt.Document
import Refutation.Proofs.Formula.Document
import Refutation.Proofs.Tree.Graft

/-!
# Attempts can be read back

The documents of trees, records and attempts tell all that they are made from, as long as only
typed formulas stand where formulas are expected (`Attempt.OfTerms`). A field that was left out by
a reader, or given its default, would show here.

A saved text has more to lose: an object in it keeps one field for each name. So the names of the
witnesses' keys have to be distinct (`Attempt.Plain`).

* `Tree.ofJson_toJson`, `Attempt.decode_toJson`: what is written can be read back.
* `Attempt.load_save`: **a saved attempt is loaded as it was.**
-/

namespace Refutation

/-! ## Values and lists -/

theorem Json.asText?_ofOption (o : Option String) : (Json.ofOption .str o).asText? = .ok o := by
  cases o <;> rfl

theorem Json.asTexts_strings (ss : List String) : (Json.strings ss).asTexts = .ok ss := by
  exact Json.mapM_eq_self ss fun _ _ => rfl

theorem instantiationsOfJson_toJson (is : List Instantiation) :
    instantiationsOfJson (instantiationsToJson is) = .ok is := by
  exact Json.mapM_eq_self is fun _ _ => rfl

namespace Entry

/-- A typed formula. -/
def IsTerm : Entry → Prop
  | .formula f => f.isTyped = true
  | .plain _ => False
  | .notPlain _ => False

variable {e : Entry}

theorem ofJson_toJson (h : e.IsTerm) : ofJson e.toJson = .ok e := by
  cases e with
  | formula f => rw [toJson, ofJson, Formula.ofJson_toJson h]; rfl
  | plain v => cases h
  | notPlain v => cases h

theorem optionOfJson_ofOption {o : Option Entry} (h : ∀ e ∈ o, e.IsTerm) :
    optionOfJson (.ofOption toJson o) = .ok o := by
  cases o with
  | none => rfl
  | some e =>
    have he := ofJson_toJson (h e rfl)
    have hnull : toJson e ≠ .null := by
      intro hnull
      rw [hnull] at he
      cases he
    show optionOfJson (toJson e) = _
    rw [optionOfJson, he]
    · rfl
    · exact hnull

theorem encodeError?_of_isTerm (h : e.IsTerm) : e.encodeError? = none := by
  cases e with
  | formula f => exact if_pos h
  | plain v => cases h
  | notPlain v => cases h

end Entry

/-! ## Trees -/

namespace Tree

/-- Only typed formulas stand on the nodes of a tree. -/
def OfTerms (t : Tree) : Prop :=
  ∀ u ∈ t.nodes, (∀ e ∈ u.label.formulas, e.IsTerm) ∧ ∀ e ∈ u.label.origin, e.IsTerm

variable {l : Label} {ts : List Tree} {t : Tree}

theorem OfTerms.child (h : (node l ts).OfTerms) (ht : t ∈ ts) : t.OfTerms := by
  intro u hu
  refine h u ?_
  rw [nodes, nodesList_eq_flatMap]
  exact List.mem_cons_of_mem _ (List.mem_flatMap.2 ⟨t, ht, hu⟩)

theorem ofJsonList_toJsonList (h : ∀ t ∈ ts, ofJson t.toJson = .ok t) :
    ofJsonList (toJsonList ts) = .ok ts := by
  induction ts with
  | nil => rfl
  | cons t ts ih =>
    rw [toJsonList, ofJsonList, h t List.mem_cons_self, ih fun s hs => h s (List.mem_cons_of_mem _ hs)]
    rfl

theorem ofChildren_cons {k : String} {v : Json} {fields : List (String × Json)} :
    ofChildren ((k, v) :: fields) = if k = "children" then ofForest v else ofChildren fields := by
  rw [ofChildren]

/-- **The document of a tree tells the tree.** -/
theorem ofJson_toJson (h : t.OfTerms) : ofJson t.toJson = .ok t := by
  induction t using induct with
  | node l ts ih =>
    obtain ⟨hformulas, horigin⟩ := h _ (mem_nodes_self _)
    have hlist : Entry.listOfJson (.arr (l.formulas.map Entry.toJson)) = .ok l.formulas :=
      Json.mapM_eq_self _ fun e he => Entry.ofJson_toJson (hformulas e he)
    have horigin : Entry.optionOfJson (.ofOption Entry.toJson l.origin) = .ok l.origin :=
      Entry.optionOfJson_ofOption horigin
    have hchildren : ofForest (.arr (toJsonList ts)) = .ok ts := by
      rw [ofForest, ofJsonList_toJsonList fun t ht => ih t ht (h.child ht)]
    simp only [toJson, ofJson, Json.required_cons, Json.optional_cons, ofChildren_cons,
      String.reduceEq, if_true, if_false, hlist, hchildren, Json.asInt, Json.asBool, Json.asText,
      Json.asText?_ofOption, Json.asTexts_strings, instantiationsOfJson_toJson,
      horigin]
    rfl

end Tree

/-! ## Records and attempts -/

/-- **The document of a record tells the record.** -/
theorem Record.ofJson_toJson (r : Record) : ofJson r.toJson = .ok r := by
  simp only [toJson, ofJson, Json.required_cons, Json.optional_cons, String.reduceEq, if_true,
    if_false, Json.asInt, Json.asText, Json.asTexts_strings, instantiationsOfJson_toJson]
  rfl

theorem logOfJson_toJson (log : List Record) : logOfJson (.arr (log.map Record.toJson)) = .ok log := by
  exact Json.mapM_eq_self log fun r _ => r.ofJson_toJson

/-- A budget allows a number of steps if it is a number or a truth value. -/
theorem Budget.eq_of_limit? {b : Budget} {n : Int} (h : b.limit? = some n) :
    b = .steps n ∨ ∃ c, b = .other (.bool c) := by
  cases b with
  | steps m => cases h; exact Or.inl rfl
  | other v =>
    cases v with
    | bool c => exact Or.inr ⟨c, rfl⟩
    | _ => cases h

theorem Budget.ofJson_toJson {b : Budget} {n : Int} (h : b.limit? = some n) :
    Budget.ofJson b.toJson = b := by
  rcases eq_of_limit? h with rfl | ⟨c, rfl⟩ <;> rfl

namespace Attempt

/-- Only typed formulas stand where formulas are expected. -/
structure OfTerms (a : Attempt) : Prop where
  root : a.root.OfTerms
  goal : ∀ e ∈ a.goal, e.IsTerm
  witnesses : ∀ w ∈ a.supply.witnesses, w.2.isTyped = true

/-- The attempt whose witnesses have the names of their keys as keys. -/
def withKeyNames (a : Attempt) : Attempt :=
  { a with supply.witnesses := a.supply.witnesses.map fun w => (some (keyName w.1), w.2) }

variable {a : Attempt}

theorem OfTerms.witnessesOfJson_toJson (h : a.OfTerms) :
    witnessesOfJson (.obj (a.supply.witnesses.map fun w => (keyName w.1, w.2.toJson))) =
      .ok a.withKeyNames.supply.witnesses := by
  refine Json.mapM_of_forall _ fun w hw => ?_
  rw [Formula.ofJson_toJson (h.witnesses w hw)]
  rfl

/-- **The document of an attempt tells the attempt**, up to keys without a name. -/
theorem OfTerms.decode_toJson (h : a.OfTerms) {n : Int} (hn : a.maxSteps.limit? = some n) :
    decode a.toJson = .ok a.withKeyNames := by
  have hmax : Budget.ofJson a.maxSteps.toJson = a.maxSteps := Budget.ofJson_toJson hn
  simp only [toJson, decode, Json.required_cons, Json.optional_cons, String.reduceEq, if_true,
    if_false, Tree.ofJson_toJson h.root, Entry.optionOfJson_ofOption h.goal, Json.asInt,
    Json.asBool, Json.asText, logOfJson_toJson, h.witnessesOfJson_toJson, Function.comp_apply, hmax]
  rfl

theorem withKeyNames_eq (h : ∀ w ∈ a.supply.witnesses, w.1 ≠ none) : a.withKeyNames = a := by
  have hws : a.supply.witnesses.map (fun w => (some (keyName w.1), w.2)) = a.supply.witnesses := by
    refine (List.map_congr_left fun w hw => ?_).trans (List.map_id _)
    obtain ⟨key, c⟩ := w
    cases key with
    | none => exact absurd rfl (h _ hw)
    | some k => rfl
  unfold withKeyNames
  rw [hws]

/-- What an attempt needs to be started or loaded. -/
structure Admissible (a : Attempt) : Prop where
  budget : ∃ n : Int, a.maxSteps.limit? = some n ∧ 0 ≤ n
  policy : a.policy ∈ WitnessPolicy.known

theorem Admissible.checked_eq (h : a.Admissible) : a.checked = .ok a := by
  obtain ⟨⟨n, hn, hpos⟩, hp⟩ := h
  rw [checked, hn]
  show (if n < 0 then _ else _) = _
  rw [if_neg (by omega), if_pos hp]

theorem OfTerms.ofJson_toJson (h : a.OfTerms) (ha : a.Admissible) :
    ofJson a.toJson = .ok a.withKeyNames := by
  obtain ⟨n, hn, -⟩ := ha.budget
  have hchecked : a.withKeyNames.checked = .ok a.withKeyNames :=
    Admissible.checked_eq ⟨ha.budget, ha.policy⟩
  rw [ofJson, h.decode_toJson hn]
  show a.withKeyNames.checked.mapError LoadError.setup = _
  rw [hchecked]
  rfl

/-- **An attempt is read back from its own document as it was.** -/
theorem OfTerms.reread_eq (h : a.OfTerms) (ha : a.Admissible) : a.reread = .ok a := by
  have hws : List.zipWith (fun v w => (v.1, w.2)) a.supply.witnesses
      a.withKeyNames.supply.witnesses = a.supply.witnesses := by
    show List.zipWith _ _ (a.supply.witnesses.map _) = _
    rw [List.zipWith_map_right]
    simp [List.zipWith_self]
  rw [reread, h.ofJson_toJson ha, Except.map, hws]
  rfl

/-! ## Saved texts -/

end Attempt

namespace Tree

theorem encodeErrorIn?_eq_none {ts : List Tree} (h : ∀ t ∈ ts, t.encodeError? = none) :
    encodeErrorIn? ts = none := by
  induction ts with
  | nil => rfl
  | cons t ts ih =>
    rw [encodeErrorIn?, h t List.mem_cons_self, ih fun s hs => h s (List.mem_cons_of_mem _ hs)]
    rfl

theorem OfTerms.encodeError? {t : Tree} (h : t.OfTerms) : t.encodeError? = none := by
  induction t using induct with
  | node l ts ih =>
    obtain ⟨hformulas, horigin⟩ := h _ (mem_nodes_self _)
    have hfs : l.formulas.findSome? Entry.encodeError? = none :=
      List.findSome?_eq_none_iff.2 fun e he => Entry.encodeError?_of_isTerm (hformulas e he)
    have hts := encodeErrorIn?_eq_none fun t ht => ih t ht (h.child ht)
    have horg : l.origin.bind Entry.encodeError? = none :=
      Option.bind_eq_none_iff.2 fun e he => Entry.encodeError?_of_isTerm (horigin e he)
    rw [Tree.encodeError?, hfs, hts, horg]
    rfl

end Tree

theorem proper_instantiationsToJson {is : List Instantiation}
    (h : ∀ i ∈ is, ∀ j ∈ i, Json.Proper j) : Json.Proper (instantiationsToJson is) := by
  refine .arr fun j hj => ?_
  obtain ⟨i, hi, rfl⟩ := List.mem_map.1 hj
  exact .arr (h i hi)

theorem Json.proper_strings (ss : List String) : Json.Proper (.strings ss) := by
  refine .arr fun j hj => ?_
  obtain ⟨s, -, rfl⟩ := List.mem_map.1 hj
  exact .str s

theorem Json.proper_ofOption {α : Type} {f : α → Json} {o : Option α} (h : ∀ a ∈ o, Proper (f a)) :
    Proper (.ofOption f o) := by
  cases o with
  | none => exact .null
  | some a => exact h a rfl

theorem Entry.proper_toJson {e : Entry} (h : e.IsTerm) : Json.Proper e.toJson := by
  cases e with
  | formula f => exact f.proper_toJson
  | plain v => cases h
  | notPlain v => cases h

theorem Tree.mem_toJsonList {ts : List Tree} {j : Json} (h : j ∈ toJsonList ts) :
    ∃ t ∈ ts, j = t.toJson := by
  induction ts with
  | nil => cases h
  | cons t ts ih =>
    rw [toJsonList] at h
    rcases List.mem_cons.1 h with rfl | h
    · exact ⟨t, List.mem_cons_self, rfl⟩
    · obtain ⟨s, hs, hj⟩ := ih h
      exact ⟨s, List.mem_cons_of_mem _ hs, hj⟩

theorem Tree.OfTerms.proper_toJson {t : Tree} (h : t.OfTerms)
    (hinst : ∀ u ∈ t.nodes, ∀ i ∈ u.label.instantiations, ∀ j ∈ i, Json.Proper j) :
    Json.Proper t.toJson := by
  induction t using induct with
  | node l ts ih =>
    obtain ⟨hformulas, horigin⟩ := h _ (mem_nodes_self _)
    refine .obj (by simp) ?_
    simp only [List.forall_mem_cons]
    refine ⟨.int _, .arr fun j hj => ?_, .bool _, .arr fun j hj => ?_,
      Json.proper_ofOption fun s _ => .str s, Json.proper_ofOption fun s _ => .str s, .int _,
      Json.proper_strings _, proper_instantiationsToJson (hinst _ (mem_nodes_self _)), .str _,
      Json.proper_ofOption fun s _ => .str s,
      Json.proper_ofOption fun e he => Entry.proper_toJson (horigin e he), by simp⟩
    · obtain ⟨e, he, rfl⟩ := List.mem_map.1 hj
      exact Entry.proper_toJson (hformulas e he)
    · obtain ⟨t, ht, rfl⟩ := mem_toJsonList hj
      refine ih t ht (h.child ht) fun u hu => hinst u ?_
      rw [nodes, nodesList_eq_flatMap]
      exact List.mem_cons_of_mem _ (List.mem_flatMap.2 ⟨t, ht, hu⟩)

theorem Record.proper_toJson {r : Record} (h : ∀ i ∈ r.instantiations, ∀ j ∈ i, Json.Proper j) :
    Json.Proper r.toJson := by
  refine .obj (by simp) ?_
  simp only [List.forall_mem_cons]
  exact ⟨.int _, .str _, .str _, .str _, .str _, Json.proper_strings _,
    proper_instantiationsToJson h, .int _, .str _, by simp⟩

theorem Budget.proper_toJson {b : Budget} {n : Int} (h : b.limit? = some n) :
    Json.Proper b.toJson := by
  rcases eq_of_limit? h with rfl | ⟨c, rfl⟩
  · exact .int n
  · exact .bool c

namespace Attempt

variable {a : Attempt}

/-- What is kept apart in an attempt is kept apart in its saved text. -/
structure Plain (a : Attempt) : Prop where
  named : ∀ w ∈ a.supply.witnesses, w.1 ≠ none
  keys : (a.supply.witnesses.map Prod.fst).Nodup
  nodes : ∀ u ∈ a.root.nodes, ∀ i ∈ u.label.instantiations, ∀ j ∈ i, Json.Proper j
  log : ∀ r ∈ a.log, ∀ i ∈ r.instantiations, ∀ j ∈ i, Json.Proper j

theorem OfTerms.proper_toJson (h : a.OfTerms) (ha : a.Admissible) (hp : a.Plain) :
    Json.Proper a.toJson := by
  have hgoal : Json.Proper (.ofOption Entry.toJson a.goal) :=
    Json.proper_ofOption fun e he => Entry.proper_toJson (h.goal e he)
  have hlog : Json.Proper (.arr (a.log.map Record.toJson)) := by
    refine .arr fun j hj => ?_
    obtain ⟨r, hr, rfl⟩ := List.mem_map.1 hj
    exact Record.proper_toJson (hp.log r hr)
  have hws : Json.Proper
      (.obj (a.supply.witnesses.map fun w => (keyName w.1, w.2.toJson))) := by
    have hkeys : a.withKeyNames.supply.witnesses.map Prod.fst =
        (a.supply.witnesses.map fun w => keyName w.1).map some := by
      rw [List.map_map, withKeyNames, List.map_map]
      rfl
    rw [withKeyNames_eq hp.named] at hkeys
    refine .obj ?_ fun f hf => ?_
    · rw [List.map_map]
      exact List.Nodup.of_map some (hkeys ▸ hp.keys)
    · obtain ⟨w, -, rfl⟩ := List.mem_map.1 hf
      exact w.2.proper_toJson
  have hmax : Json.Proper a.maxSteps.toJson := by
    obtain ⟨n, hn, -⟩ := ha.budget
    exact Budget.proper_toJson hn
  have hpol : Json.Proper a.policy.value := by
    rcases List.mem_pair.1 ha.policy with hpol | hpol <;> rw [hpol] <;> exact .str _
  refine .obj (by simp) ?_
  simp only [List.forall_mem_cons]
  exact ⟨h.root.proper_toJson hp.nodes, hgoal, .int _, .int _, hlog, hws, .int _, .bool _, .str _,
    .bool _, hmax, hpol, by simp⟩

theorem OfTerms.encodeError? (h : a.OfTerms) : a.encodeError? = none := by
  have hgoal : a.goal.bind Entry.encodeError? = none :=
    Option.bind_eq_none_iff.2 fun e he => Entry.encodeError?_of_isTerm (h.goal e he)
  have hws : a.supply.witnesses.findSome? (fun w => w.2.encodeError?) = none :=
    List.findSome?_eq_none_iff.2 fun w hw => if_pos (h.witnesses w hw)
  rw [Attempt.encodeError?, h.root.encodeError?, hgoal, hws]
  rfl

/-- **A saved attempt is loaded as it was.** -/
theorem OfTerms.load_save (h : a.OfTerms) (ha : a.Admissible) (hp : a.Plain) :
    ∃ text, a.save = .ok text ∧ load text = .ok a := by
  refine ⟨a.toJson.indented, ?_, ?_⟩
  · rw [save, h.encodeError?]
  · rw [load, Json.parse?_indented (h.proper_toJson ha hp)]
    show ofJson a.toJson = _
    rw [h.ofJson_toJson ha, withKeyNames_eq hp.named]

end Attempt

end Refutation
