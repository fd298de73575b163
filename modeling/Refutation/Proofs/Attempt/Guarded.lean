import Refutation.Attempt.Expand
import Refutation.Proofs.Reading.Names

/-!
# Guarded expansions

An expansion relies on what was settled elsewhere: that the formula is on the node, that its
rule and the family of the rule are known, that a branching rule comes with two parts, and
that only formulas are written, compared and instantiated. A guarded expansion relies on
nothing. It starts from a request, so that the rule is looked up by its name and the family
is told by its name, and each operation tests what it is given. Where the plain expansion
writes any value, the guarded one writes formulas only.

* `Guards`: a guarded operation, its guard, and the plain operation.
* `Request.guarded_eq_ok_iff`: **a guarded expansion is granted exactly if the plain one is and
  everything at hand is a formula**, and then the two give the same.
-/

namespace Refutation

/-- An entry that is a formula. -/
def Entry.IsFormula (e : Entry) : Prop :=
  ∃ f, e = .formula f

theorem Entry.isFormula_of_mem_map {fs : List Formula} : ∀ e ∈ fs.map formula, e.IsFormula := by
  rw [List.forall_mem_map]
  exact fun f _ => ⟨f, rfl⟩

/-- Why a guarded operation is refused. -/
inductive Fault where
  /-- As an expansion is refused. -/
  | refused (cause : ExpandError)
  /-- No family has this name. -/
  | unknownFamily (name : String)
  deriving DecidableEq, Repr

/-- The entries a move puts in place of a formula, a variable of them not yet instantiated. -/
def Move.pieces : Move → List Entry
  | .replace parts => parts
  | .split left right => [left, right]
  | .instantiate _ _ body _ => [body]

/-- The match a request asks for. -/
def Request.asked? (r : Request) : Option Match := do
  let rule ← Rule.ofName? r.rule
  let move ← r.move? rule.family
  return ⟨rule, r.formula, move⟩

namespace Guarded

open Expand Reading

/-! ## Operations -/

/-- What an operation gives, or why it was refused. -/
def granted {α : Type} : Except Refusal α → Except Fault α
  | .ok a => .ok a
  | .error e => .error (.refused e.cause)

/-- The formula of an entry. -/
def formula (e : Entry) : Except Fault Formula :=
  match e.asFormula with
  | .ok f => .ok f
  | .error x => .error (.refused (.notFormula x))

/-- The text of an entry that is a formula. -/
def text (e : Entry) : Except Fault String := do
  return (← formula e).text

/-- The text of a list of formulas. -/
def listText (es : List Entry) : Except Fault String := do
  let ts ← es.mapM text
  return if es.isEmpty then "[empty]" else ", ".intercalate ts

/-- Entries without the first occurrence of one of them. -/
def without (es : List Entry) (e : Entry) : Except Fault (List Entry) :=
  if e ∈ es then .ok (es.erase e) else .error (.refused .notOnNode)

/-- The rule with a name. -/
def ruleNamed (name : String) : Except Fault Rule :=
  match Rule.ofName? name with
  | some r => .ok r
  | none => .error (.refused (.unknownRule name))

/-- What a rule does with the pieces of a request, if its family has this name. -/
def moveNamed (r : Request) (family : String) : Except Fault Move :=
  if family = Family.alpha.name then .ok (.replace r.parts)
  else if family = Family.beta.name then
    match r.parts with
    | [left, right] => .ok (.split left right)
    | _ => .error (.refused .wrongParts)
  else if family = Family.gamma.name ∨ family = Family.delta.name then
    .ok (.instantiate r.bound r.type r.body r.keep)
  else .error (.unknownFamily family)

/-- The name of a witness. -/
def witnessName (w : Formula) : Except Fault String :=
  match w.name? with
  | some n => .ok n
  | none => .error (.refused .namelessWitness)

/-- The record of a step; `target` is the text of the formula. -/
def record (t : Tree) (m : Match) (num : Int) (target detail after : String)
    (insts : List Instantiation) : Except Fault Record := do
  let before ← listText t.label.formulas
  return {
    num, rule := m.rule.name, description := m.rule.description ++ detail, before, after,
    path := t.label.path, instantiations := insts, nodeId := t.id, formula := target }

/-- Carry out a move; `rest` is what the node holds beside the formula. -/
def carryOut (policy : WitnessPolicy) (s : Supply) (t : Tree) (num : Int) (m : Match)
    (rest : List Entry) (target : String) : Except Fault Expansion :=
  match m.move with
  | .replace parts => do
    let formulas := parts ++ rest
    let (tree, s) ← granted (extend t m num formulas t.label.instantiations s)
    let detail := ": " ++ target ++ " gives " ++ (← listText parts)
    return ⟨tree, ← record t m num target detail (← listText formulas) [], s⟩
  | .split left right => do
    let (tree, s) ← granted (branch t m num (left :: rest) (right :: rest) s)
    let detail := ": " ++ target ++ " splits into " ++ (← text left) ++ " | " ++ (← text right)
    let after := "Left: " ++ (← listText (left :: rest)) ++ " | Right: " ++
      (← listText (right :: rest))
    return ⟨tree, ← record t m num target detail after [], s⟩
  | .instantiate x τ body keep => do
    let (c, s) := s.witness (policy.key x target t.label.path) τ
    let name ← witnessName c
    let inst : Entry := instantiated (← formula body) x c
    let formulas := if keep then m.formula :: inst :: rest else inst :: rest
    let pair := Instantiation.of x name
    let (tree, s) ← granted (extend t m num formulas (t.label.instantiations ++ [pair]) s)
    let detail := " [" ++ Instantiation.boundText x ++ " → " ++ name ++ "]" ++ (": " ++ target) ++
      " gives " ++ (← text inst)
    return ⟨tree, ← record t m num target detail (← listText formulas) [pair], s⟩

/-! ## Guards -/

/-- A guarded operation is granted exactly where its guard holds, and there gives what the plain
operation gives. -/
def Guards {α β : Type} (g : α → Except Fault β) (P : α → Prop) (h : α → β) : Prop :=
  ∀ x y, g x = .ok y ↔ P x ∧ y = h x

namespace Guards

variable {α β γ : Type} {g : α → Except Fault β} {P : α → Prop} {h : α → β}

theorem comp (hg : Guards g P h) (k : γ → α) :
    Guards (fun x => g (k x)) (fun x => P (k x)) fun x => h (k x) :=
  fun x => hg (k x)

/-- What is made of the outcome needs no guard. -/
theorem andThen (hg : Guards g P h) (k : α → β → γ) :
    Guards (fun x => do return k x (← g x)) P fun x => k x (h x) := by
  intro x z
  simp only [bind_eq_ok_iff, hg x, pure, Except.pure, Except.ok.injEq]
  constructor
  · rintro ⟨_, ⟨hx, rfl⟩, rfl⟩
    exact ⟨hx, rfl⟩
  · rintro ⟨hx, rfl⟩
    exact ⟨_, ⟨hx, rfl⟩, rfl⟩

/-- One after the other on a list, each with its guard. -/
theorem mapM (hg : Guards g P h) :
    Guards (fun xs => xs.mapM g) (fun xs => ∀ x ∈ xs, P x) (List.map h) := by
  intro xs
  induction xs with
  | nil => intro ys; simp [pure, Except.pure, eq_comm]
  | cons x xs ih =>
    intro ys
    simp only [List.mapM_cons, bind_eq_ok_iff, hg x, ih, pure, Except.pure, Except.ok.injEq,
      List.forall_mem_cons, List.map_cons]
    constructor
    · rintro ⟨_, ⟨hx, rfl⟩, _, ⟨hxs, rfl⟩, rfl⟩
      exact ⟨⟨hx, hxs⟩, rfl⟩
    · rintro ⟨⟨hx, hxs⟩, rfl⟩
      exact ⟨_, ⟨hx, rfl⟩, _, ⟨hxs, rfl⟩, rfl⟩

end Guards

theorem guards_text : Guards text Entry.IsFormula Entry.text := by
  intro e s
  unfold text formula Entry.IsFormula
  cases e <;> simp [Entry.asFormula, Entry.text, bind, Except.bind, pure, Except.pure, eq_comm]

theorem guards_listText : Guards listText (fun es => ∀ e ∈ es, e.IsFormula) Entry.listText :=
  guards_text.mapM.andThen fun es ts => if es.isEmpty then "[empty]" else ", ".intercalate ts

theorem granted_eq_ok_iff {α : Type} {x : Except Refusal α} {a : α} :
    granted x = .ok a ↔ x = .ok a := by
  cases x <;> simp [granted]

theorem formula_eq_ok_iff {e : Entry} {f : Formula} : formula e = .ok f ↔ e = .formula f := by
  unfold formula
  cases e <;> simp [Entry.asFormula]

theorem without_eq_ok_iff {es rest : List Entry} {e : Entry} :
    without es e = .ok rest ↔ e ∈ es ∧ rest = es.erase e := by
  unfold without
  split <;> simp_all [eq_comm]

theorem ruleNamed_eq_ok_iff {name : String} {r : Rule} :
    ruleNamed name = .ok r ↔ Rule.ofName? name = some r := by
  unfold ruleNamed
  cases Rule.ofName? name <;> simp

/-- Every family is known by its name. -/
theorem moveNamed_eq_ok_iff {r : Request} {family : Family} {move : Move} :
    moveNamed r family.name = .ok move ↔ r.move? family = some move := by
  unfold moveNamed Request.move?
  cases family with
  | alpha => simp [Family.name]
  | beta =>
    -- two pieces are told from none, one and three or more
    rcases r.parts with _ | ⟨left, _ | ⟨right, _ | ⟨third, rest⟩⟩⟩ <;> simp [Family.name]
  | gamma => simp [Family.name]
  | delta => simp [Family.name]

theorem witnessName_eq_ok_iff {w : Formula} {n : String} :
    witnessName w = .ok n ↔ w.name? = some n := by
  unfold witnessName
  cases w.name? <;> simp

/-! ## Expansions -/

variable {p : WitnessPolicy} {s : Supply} {t : Tree} {num : Int} {m : Match} {e : Expansion}

theorem guards_record (m : Match) (num : Int) (detail after : String)
    (insts : List Instantiation) :
    Guards (fun t => record t m num m.formula.text detail after insts)
      (fun t => ∀ x ∈ t.label.formulas, x.IsFormula)
      fun t => Expand.record t m num detail after insts := by
  have hbefore := guards_listText.comp fun t : Tree => t.label.formulas
  exact hbefore.andThen fun t before =>
    ({ Expand.record t m num detail after insts with before } : Record)

/-- Carrying out a move is granted exactly if the expansion is and all entries are formulas. -/
theorem carryOut_eq_ok_iff (hm : m.formula ∈ t.label.formulas) :
    carryOut p s t num m (t.label.formulas.erase m.formula) m.formula.text = .ok e ↔
      expand p s t num m = .ok e ∧ (∀ x ∈ t.label.formulas, x.IsFormula) ∧
        ∀ x ∈ m.move.pieces, x.IsFormula := by
  have hrest : (∀ x ∈ t.label.formulas, x.IsFormula) →
      ∀ x ∈ t.label.formulas.erase m.formula, x.IsFormula :=
    fun h x hx => h x (List.mem_of_mem_erase hx)
  unfold carryOut expand
  rw [if_pos hm]
  cases m.move with
  | replace parts =>
    simp only [bind_eq_ok_iff, granted_eq_ok_iff, guards_listText _ _, guards_record _ _ _ _ _ _ _,
      pure, Except.pure, Except.ok.injEq, Move.pieces]
    constructor
    · rintro ⟨_, hx, _, ⟨hps, rfl⟩, _, ⟨-, rfl⟩, _, ⟨hfs, rfl⟩, rfl⟩
      exact ⟨⟨_, hx, rfl⟩, hfs, hps⟩
    · rintro ⟨⟨_, hx, rfl⟩, hfs, hps⟩
      have hnew := List.forall_mem_append.2 ⟨hps, hrest hfs⟩
      exact ⟨_, hx, _, ⟨hps, rfl⟩, _, ⟨hnew, rfl⟩, _, ⟨hfs, rfl⟩, rfl⟩
  | split left right =>
    simp only [bind_eq_ok_iff, granted_eq_ok_iff, guards_listText _ _, guards_text _ _,
      guards_record _ _ _ _ _ _ _, pure, Except.pure, Except.ok.injEq, Move.pieces,
      List.forall_mem_cons]
    constructor
    · rintro ⟨_, hx, _, ⟨hl, rfl⟩, _, ⟨hr, rfl⟩, _, ⟨-, rfl⟩, _, ⟨-, rfl⟩, _, ⟨hfs, rfl⟩, rfl⟩
      exact ⟨⟨_, hx, rfl⟩, hfs, hl, hr, List.forall_mem_nil _⟩
    · rintro ⟨⟨_, hx, rfl⟩, hfs, hl, hr, -⟩
      exact ⟨_, hx, _, ⟨hl, rfl⟩, _, ⟨hr, rfl⟩, _, ⟨⟨hl, hrest hfs⟩, rfl⟩, _,
        ⟨⟨hr, hrest hfs⟩, rfl⟩, _, ⟨hfs, rfl⟩, rfl⟩
  | instantiate x τ body keep =>
    obtain ⟨⟨c, s'⟩, hw⟩ : ∃ r, s.witness (p.key x m.formula.text t.label.path) τ = r := ⟨_, rfl⟩
    simp only [hw, bind_eq_ok_iff, granted_eq_ok_iff, guards_listText _ _, guards_text _ _,
      guards_record _ _ _ _ _ _ _, formula_eq_ok_iff, witnessName_eq_ok_iff, pure, Except.pure,
      Except.ok.injEq, Move.pieces, List.forall_mem_singleton]
    constructor
    · rintro ⟨name, hname, b, rfl, _, hx, _, ⟨-, rfl⟩, _, ⟨-, rfl⟩, _, ⟨hfs, rfl⟩, rfl⟩
      simp only [hname, Entry.asFormula, bind_eq_ok_iff, Except.ok.injEq]
      exact ⟨⟨_, hx, rfl⟩, hfs, b, rfl⟩
    · rintro ⟨hx, hfs, b, rfl⟩
      cases hname : c.name? with
      | none => simp [hname] at hx
      | some name =>
        simp only [hname, Entry.asFormula, bind_eq_ok_iff, Except.ok.injEq] at hx
        obtain ⟨_, hx, rfl⟩ := hx
        have hinst : (Entry.formula (instantiated b x c)).IsFormula := ⟨_, rfl⟩
        have hnew := List.forall_mem_cons.2 ⟨hinst, hrest hfs⟩
        refine ⟨name, rfl, b, rfl, _, hx, _, ⟨hinst, rfl⟩, _, ⟨?_, rfl⟩, _, ⟨hfs, rfl⟩, rfl⟩
        cases keep with
        | false => exact hnew
        | true => exact List.forall_mem_cons.2 ⟨hfs _ hm, hnew⟩

end Guarded

namespace Request

open Guarded Reading

variable {r : Request} {p : WitnessPolicy} {s : Supply} {t : Tree} {num : Int} {m : Match}
  {e : Expansion}

/-- Carry out a request. The formula has to be on the node, its rule and the family of the rule
have to be known by their names, and then the pieces are put to use. -/
def guarded (r : Request) (policy : WitnessPolicy) (s : Supply) (t : Tree) (num : Int) :
    Except Fault Expansion := do
  let rest ← without t.label.formulas r.formula
  let target ← text r.formula
  let rule ← ruleNamed r.rule
  let move ← moveNamed r rule.family.name
  carryOut policy s t num ⟨rule, r.formula, move⟩ rest target

theorem asked?_eq_some_iff :
    r.asked? = some m ↔ m.formula = r.formula ∧ Rule.ofName? r.rule = some m.rule ∧
      r.move? m.rule.family = some m.move := by
  obtain ⟨rule, f, move⟩ := m
  simp only [asked?, Option.bind_eq_bind, Option.bind_eq_some_iff, Option.pure_def,
    Option.some.injEq, Match.mk.injEq]
  constructor
  · rintro ⟨_, hrule, _, hmove, rfl, rfl, rfl⟩
    exact ⟨rfl, hrule, hmove⟩
  · rintro ⟨rfl, hrule, hmove⟩
    exact ⟨rule, hrule, move, hmove, rfl, rfl, rfl⟩

/-- What is asked for is what is done. -/
theorem expand_of_asked (h : r.asked? = some m) :
    r.expand p s t num = Refutation.expand p s t num m := by
  obtain ⟨hf, hrule, hmove⟩ := asked?_eq_some_iff.1 h
  obtain ⟨rule, f, move⟩ := m
  simp only at hf hrule hmove
  subst hf
  unfold Request.expand
  split
  · simp only [hrule, hmove]
  · rename_i hm
    rw [Refutation.expand, if_neg hm]

/-- **A guarded expansion is granted exactly if the plain one is and everything at hand is a
formula**, and then the two give the same. -/
theorem guarded_eq_ok_iff :
    r.guarded p s t num = .ok e ↔
      r.expand p s t num = .ok e ∧ (∀ x ∈ t.label.formulas, x.IsFormula) ∧
        ∀ m, r.asked? = some m → ∀ x ∈ m.move.pieces, x.IsFormula := by
  unfold guarded
  simp only [bind_eq_ok_iff, without_eq_ok_iff, guards_text _ _, ruleNamed_eq_ok_iff,
    moveNamed_eq_ok_iff]
  constructor
  · rintro ⟨_, ⟨hm, rfl⟩, _, ⟨-, rfl⟩, rule, hrule, move, hmove, h⟩
    have hasked : r.asked? = some ⟨rule, r.formula, move⟩ :=
      asked?_eq_some_iff.2 ⟨rfl, hrule, hmove⟩
    obtain ⟨hx, hfs, hps⟩ := (carryOut_eq_ok_iff hm).1 h
    refine ⟨(expand_of_asked hasked).trans hx, hfs, ?_⟩
    intro m hm'
    rw [hasked] at hm'
    cases hm'
    exact hps
  · rintro ⟨hx, hfs, hps⟩
    -- the plain expansion tells that the formula, the rule and the move are there
    unfold Request.expand at hx
    split at hx
    · rename_i hm
      split at hx
      · cases hx
      · rename_i rule hrule
        split at hx
        · cases hx
        · rename_i move hmove
          have hasked : r.asked? = some ⟨rule, r.formula, move⟩ :=
            asked?_eq_some_iff.2 ⟨rfl, hrule, hmove⟩
          refine ⟨_, ⟨hm, rfl⟩, _, ⟨hfs _ hm, rfl⟩, rule, hrule, move, hmove, ?_⟩
          exact (carryOut_eq_ok_iff hm).2 ⟨hx, hfs, hps _ hasked⟩
    · cases hx

end Request

end Refutation
