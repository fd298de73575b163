import Refutation.Entry

/-!
# Patterns

Formulas are compared as patterns: variables, atoms, and heads with any number of
arguments. What unification does not look into is a leaf: a sealed entry, or a plain
value.

* `Pattern.bind`: the pattern with a pattern for each variable.
* `Pattern.vars`, `Pattern.occurs`: the variables of a pattern.
-/

namespace Refutation

/-- What stands above the arguments of a compound pattern. -/
inductive Head where
  | fn (name : String)
  | pred (name : String)
  | conn (name : String)
  deriving DecidableEq, Repr

/-- Patterns. -/
inductive Pattern where
  | var (name : String)
  | atom (name : String)
  | node (head : Head) (args : List Pattern)
  | sealed (e : Entry)
  | plain (v : Json)
  deriving Repr

namespace Pattern

mutual

/-- Equality of patterns is decidable. -/
def decEq : (a b : Pattern) → Decidable (a = b)
  | .var x, .var y =>
    if h : x = y then isTrue (by rw [h]) else isFalse (by intro e; injection e; contradiction)
  | .atom x, .atom y =>
    if h : x = y then isTrue (by rw [h]) else isFalse (by intro e; injection e; contradiction)
  | .sealed x, .sealed y =>
    if h : x = y then isTrue (by rw [h]) else isFalse (by intro e; injection e; contradiction)
  | .plain x, .plain y =>
    if h : x = y then isTrue (by rw [h]) else isFalse (by intro e; injection e; contradiction)
  | .node h as, .node k bs =>
    if hk : h = k then
      match decEqList as bs with
      | isTrue e => isTrue (by rw [hk, e])
      | isFalse n => isFalse (by intro e; injection e; contradiction)
    else isFalse (by intro e; injection e; contradiction)
  | .var _, .atom _ | .var _, .node _ _ | .var _, .sealed _ | .var _, .plain _ => isFalse nofun
  | .atom _, .var _ | .atom _, .node _ _ | .atom _, .sealed _ | .atom _, .plain _ => isFalse nofun
  | .node _ _, .var _ | .node _ _, .atom _ | .node _ _, .sealed _ | .node _ _, .plain _ =>
    isFalse nofun
  | .sealed _, .var _ | .sealed _, .atom _ | .sealed _, .node _ _ | .sealed _, .plain _ =>
    isFalse nofun
  | .plain _, .var _ | .plain _, .atom _ | .plain _, .node _ _ | .plain _, .sealed _ =>
    isFalse nofun
termination_by structural a => a

/-- Equality of lists of patterns is decidable. -/
def decEqList : (as bs : List Pattern) → Decidable (as = bs)
  | [], [] => isTrue rfl
  | [], _ :: _ => isFalse nofun
  | _ :: _, [] => isFalse nofun
  | a :: as, b :: bs =>
    match decEq a b with
    | isFalse h => isFalse (by intro e; injection e; contradiction)
    | isTrue h =>
      match decEqList as bs with
      | isTrue h' => isTrue (by rw [h, h'])
      | isFalse h' => isFalse (by intro e; injection e; contradiction)
termination_by structural as => as

end

instance : DecidableEq Pattern := decEq

mutual

/-- The pattern with `σ x` for each variable `x`. -/
def bind (σ : String → Pattern) : Pattern → Pattern
  | .var x => σ x
  | .atom a => .atom a
  | .node h args => .node h (bindList σ args)
  | .sealed e => .sealed e
  | .plain v => .plain v
termination_by structural p => p

/-- The patterns with `σ x` for each variable `x`. -/
def bindList (σ : String → Pattern) : List Pattern → List Pattern
  | [] => []
  | p :: ps => bind σ p :: bindList σ ps
termination_by structural ps => ps

end

mutual

/-- The variables of a pattern, from left to right. -/
def vars : Pattern → List String
  | .var x => [x]
  | .node _ args => varsList args
  | _ => []
termination_by structural p => p

/-- The variables of a list of patterns, from left to right. -/
def varsList : List Pattern → List String
  | [] => []
  | p :: ps => vars p ++ varsList ps
termination_by structural ps => ps

end

mutual

/-- The number of variables, atoms, heads and leaves. -/
def size : Pattern → Nat
  | .node _ args => 1 + sizeList args
  | _ => 1
termination_by structural p => p

/-- The number of variables, atoms, heads and leaves in a list. -/
def sizeList : List Pattern → Nat
  | [] => 0
  | p :: ps => size p + sizeList ps
termination_by structural ps => ps

end

/-- Whether a variable occurs in a pattern. -/
def occurs (x : String) (p : Pattern) : Bool :=
  p.vars.contains x

@[simp] theorem bindList_eq_map (σ : String → Pattern) (ps : List Pattern) :
    bindList σ ps = ps.map (bind σ) := by
  induction ps with
  | nil => rfl
  | cons p ps ih => simp [bindList, ih]

@[simp] theorem varsList_eq_flatMap (ps : List Pattern) : varsList ps = ps.flatMap vars := by
  induction ps with
  | nil => rfl
  | cons p ps ih => simp [varsList, ih]

theorem size_pos (p : Pattern) : 0 < p.size := by
  cases p with
  | node h args =>
    rw [size]
    omega
  | _ => simp [size]

/-- Induction over patterns, with the hypothesis for every argument. -/
@[elab_as_elim] theorem induct {P : Pattern → Prop} (var : ∀ x, P (.var x))
    (atom : ∀ a, P (.atom a)) (node : ∀ h args, (∀ a ∈ args, P a) → P (.node h args))
    (sealed : ∀ e, P (.sealed e)) (plain : ∀ v, P (.plain v)) (p : Pattern) : P p := by
  refine @Pattern.rec P (fun ps => ∀ a ∈ ps, P a) var atom node sealed plain ?_ ?_ p
  · intro a ha
    cases ha
  · intro p ps hp hps a ha
    rcases List.mem_cons.1 ha with rfl | ha
    · exact hp
    · exact hps a ha

/-- A variable of a bound pattern is a variable of what some variable is bound to. -/
theorem mem_vars_bind {σ : String → Pattern} {p : Pattern} {y : String} :
    y ∈ (p.bind σ).vars ↔ ∃ x ∈ p.vars, y ∈ (σ x).vars := by
  induction p using induct with
  | var x => simp [bind, vars]
  | node h args ih =>
    simp only [bind, vars, bindList_eq_map, varsList_eq_flatMap, List.mem_flatMap, List.mem_map]
    constructor
    · rintro ⟨_, ⟨a, ha, rfl⟩, hy⟩
      obtain ⟨x, hx, hy⟩ := (ih a ha).1 hy
      exact ⟨x, ⟨a, ha, hx⟩, hy⟩
    · rintro ⟨x, ⟨a, ha, hx⟩, hy⟩
      exact ⟨_, ⟨a, ha, rfl⟩, (ih a ha).2 ⟨x, hx, hy⟩⟩
  | _ => simp [bind, vars]

end Pattern

end Refutation
