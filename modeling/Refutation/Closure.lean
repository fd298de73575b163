import Refutation.Pattern.Lowering

/-!
# Closure

Formulas clash when one of them is not a negation and unifies with the body of another
that is. Only the existence of a unifier counts; its bindings are not applied anywhere.
A leaf whose formulas clash is closed.

A node may hold plain values among its formulas (`Entry.contradiction`). They are refused as
soon as one of them would have to be compared.
-/

namespace Refutation

/-- The bodies of the negations among formulas. -/
def negated (fs : List Formula) : List Formula :=
  fs.filterMap fun
    | .not b => some b
    | _ => none

/-- The formulas that are not negations. -/
def affirmed (fs : List Formula) : List Formula :=
  fs.filter (!·.isNot)

/-- The first formula that clashes with a negation. -/
def clash? (fs : List Formula) : Option Formula :=
  (affirmed fs).find? fun p => (negated fs).any p.unifiesWith

/-- The reason given for a clash. -/
def clashReason (text : String) : String :=
  text ++ " ∧ ¬" ++ text

/-- The reason why formulas are contradictory. -/
def contradiction? (fs : List Formula) : Option String :=
  (clash? fs).map fun f => clashReason f.text

namespace Entry

/-- The bodies of the negations among entries. -/
def negated (es : List Entry) : List Entry :=
  es.filterMap fun
    | .formula (.not b) => some (.formula b)
    | .notPlain v => some (.plain v)
    | _ => none

/-- Whether an entry unifies with one of several, which are tried in order. -/
def unifiesWithAny (e : Entry) : List Entry → Except NotFormula Bool
  | [] => .ok false
  | n :: ns =>
    match e.asFormula, n.asFormula with
    | .error x, _ => .error x
    | _, .error x => .error x
    | .ok f, .ok g => if f.unifiesWith g then .ok true else unifiesWithAny e ns

/-- The first entry that clashes with a negation. -/
def clashWith (negs : List Entry) : List Entry → Except NotFormula (Option Entry)
  | [] => .ok none
  | e :: es =>
    if e.isNot then clashWith negs es
    else
      match e.unifiesWithAny negs with
      | .error x => .error x
      | .ok true => .ok (some e)
      | .ok false => clashWith negs es

/-- The reason why entries are contradictory. -/
def contradiction (es : List Entry) : Except NotFormula (Option String) :=
  (clashWith (negated es) es).map (·.map fun e => clashReason e.text)

theorem negated_formulas (fs : List Formula) :
    negated (fs.map .formula) = (Refutation.negated fs).map .formula := by
  induction fs with
  | nil => rfl
  | cons f fs ih =>
    simp only [negated, Refutation.negated, List.map_cons, List.filterMap_cons] at ih ⊢
    cases f <;> simp [ih]

theorem unifiesWithAny_formulas (f : Formula) (gs : List Formula) :
    (Entry.formula f).unifiesWithAny (gs.map .formula) = .ok (gs.any f.unifiesWith) := by
  induction gs with
  | nil => rfl
  | cons g gs ih =>
    simp only [List.map_cons, unifiesWithAny, asFormula, ih, List.any_cons]
    cases f.unifiesWith g <;> simp

theorem clashWith_formulas (negs fs : List Formula) :
    clashWith (negs.map .formula) (fs.map .formula) =
      .ok (((affirmed fs).find? fun p => negs.any p.unifiesWith).map .formula) := by
  induction fs with
  | nil => rfl
  | cons f fs ih =>
    rw [List.map_cons, clashWith, unifiesWithAny_formulas, ih]
    cases hn : f.isNot <;> cases ha : negs.any f.unifiesWith <;>
      simp [affirmed, isNot, hn, ha]

/-- On formulas alone the two notions of contradiction agree. -/
theorem contradiction_formulas (fs : List Formula) :
    contradiction (fs.map .formula) = .ok (contradiction? fs) := by
  rw [contradiction, negated_formulas, clashWith_formulas]
  simp only [contradiction?, clash?, Except.map, Option.map_map]
  rfl

end Entry

end Refutation
