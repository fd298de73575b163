import Refutation.Pattern.Bindings

/-!
# Unification

Equations between patterns are solved from left to right. Equal sides are dropped; a
variable that does not occur in the other side is bound to it and eliminated from the
equations that remain; equal heads with equally many arguments are taken apart; anything
else has no solution. Each step lowers the number of variables in the equations, or keeps
it and lowers their size (`solve`).

`unify` and `unifyAll` first apply the bindings at hand and put the new ones after them.
-/

namespace Refutation

/-- How many different texts a list has. -/
def distinct : List String → Nat
  | [] => 0
  | x :: xs => if x ∈ xs then distinct xs else distinct xs + 1

theorem distinct_filter (x : String) (l : List String) :
    distinct l = distinct (l.filter (· ≠ x)) + if x ∈ l then 1 else 0 := by
  induction l with
  | nil => rfl
  | cons a l ih =>
    by_cases ha : a = x
    · subst ha
      by_cases hm : a ∈ l <;> simp [distinct, hm] at ih ⊢ <;> omega
    · have hx : ¬ x = a := fun h => ha h.symm
      by_cases hm : a ∈ l <;> simp [distinct, ha, hx, hm] at ih ⊢ <;> omega

theorem distinct_le_of_subset {xs : List String} :
    ∀ {ys : List String}, xs ⊆ ys → distinct xs ≤ distinct ys := by
  induction xs with
  | nil => intro ys _; exact Nat.zero_le _
  | cons a xs ih =>
    intro ys h
    have hxs : xs ⊆ ys := fun y hy => h (List.mem_cons_of_mem _ hy)
    by_cases ha : a ∈ xs
    · simpa [distinct, ha] using ih hxs
    · have hsub : xs ⊆ ys.filter (· ≠ a) := by
        intro y hy
        have : y ≠ a := fun e => ha (e ▸ hy)
        simp [hxs hy, this]
      have h1 := ih hsub
      have h2 := distinct_filter a ys
      rw [if_pos (h List.mem_cons_self)] at h2
      rw [distinct, if_neg ha]
      omega

/-- Fewer different texts, if one is missing. -/
theorem distinct_lt_of_subset {xs ys : List String} {x : String} (hx : x ∈ ys)
    (h : xs ⊆ ys.filter (· ≠ x)) : distinct xs < distinct ys := by
  have h1 := distinct_le_of_subset h
  have h2 := distinct_filter x ys
  rw [if_pos hx] at h2
  omega

/-- An equation between two patterns. -/
abbrev Equation := Pattern × Pattern

namespace Equation

/-- The variables of equations. -/
def vars (eqs : List Equation) : List String :=
  eqs.flatMap fun e => e.1.vars ++ e.2.vars

/-- The size of equations. -/
def size : List Equation → Nat
  | [] => 0
  | e :: eqs => e.1.size + e.2.size + size eqs

/-- Put `t` for `x` in equations. -/
def eliminate (x : String) (t : Pattern) (eqs : List Equation) : List Equation :=
  let σ := fun y => if y = x then t else .var y
  eqs.map fun e => (e.1.bind σ, e.2.bind σ)

theorem vars_append (as bs : List Equation) : vars (as ++ bs) = vars as ++ vars bs := by
  simp [vars]

theorem mem_vars_zip {as bs : List Pattern} {y : String} (h : y ∈ vars (as.zip bs)) :
    y ∈ as.flatMap Pattern.vars ++ bs.flatMap Pattern.vars := by
  simp only [vars, List.mem_flatMap, List.mem_append] at h ⊢
  obtain ⟨e, he, hy⟩ := h
  have := List.of_mem_zip he
  rcases hy with hy | hy
  · exact Or.inl ⟨_, this.1, hy⟩
  · exact Or.inr ⟨_, this.2, hy⟩

theorem size_append (as bs : List Equation) : size (as ++ bs) = size as + size bs := by
  induction as with
  | nil => simp [size]
  | cons e as ih =>
    simp only [List.cons_append, size, ih]
    omega

theorem size_zip (as bs : List Pattern) :
    size (as.zip bs) ≤ Pattern.sizeList as + Pattern.sizeList bs := by
  induction as generalizing bs with
  | nil => simp [size]
  | cons a as ih =>
    cases bs with
    | nil => simp [size]
    | cons b bs =>
      have := ih bs
      simp only [List.zip_cons_cons, size, Pattern.sizeList]
      omega

/-- Eliminating a variable that does not occur in its replacement removes it. -/
theorem mem_vars_eliminate {x y : String} {t : Pattern} {eqs : List Equation}
    (hx : x ∉ t.vars) (h : y ∈ vars (eliminate x t eqs)) :
    y ≠ x ∧ (y ∈ t.vars ∨ y ∈ vars eqs) := by
  simp only [vars, eliminate, List.mem_flatMap, List.mem_map, List.mem_append] at h ⊢
  obtain ⟨_, ⟨e, he, rfl⟩, hy⟩ := h
  have key : ∀ p : Pattern, (p = e.1 ∨ p = e.2) →
      y ∈ (p.bind fun z => if z = x then t else .var z).vars →
      y ≠ x ∧ (y ∈ t.vars ∨ ∃ e ∈ eqs, y ∈ e.1.vars ∨ y ∈ e.2.vars) := by
    intro p hp hy
    obtain ⟨z, hz, hy⟩ := Pattern.mem_vars_bind.1 hy
    by_cases hzx : z = x
    · simp only [hzx, if_true] at hy
      exact ⟨fun e => hx (e ▸ hy), Or.inl hy⟩
    · simp only [hzx, if_false, Pattern.vars, List.mem_singleton] at hy
      subst hy
      refine ⟨hzx, Or.inr ⟨e, he, ?_⟩⟩
      rcases hp with rfl | rfl
      · exact Or.inl hz
      · exact Or.inr hz
  rcases hy with hy | hy
  · exact key _ (Or.inl rfl) hy
  · exact key _ (Or.inr rfl) hy

/-- Binding a variable of the first equation leaves fewer variables. -/
theorem distinct_eliminate_lt {a b : Pattern} {x : String} {t : Pattern} {eqs : List Equation}
    (hx : x ∉ t.vars) (hmem : x ∈ a.vars ++ b.vars) (ht : t.vars ⊆ a.vars ++ b.vars) :
    distinct (vars (eliminate x t eqs)) < distinct (vars ((a, b) :: eqs)) := by
  have hv : vars ((a, b) :: eqs) = (a.vars ++ b.vars) ++ vars eqs := by simp [vars]
  rw [hv]
  refine distinct_lt_of_subset (List.mem_append_left _ hmem) ?_
  intro y hy
  obtain ⟨hne, hy⟩ := mem_vars_eliminate hx hy
  simp only [List.mem_filter, List.mem_append, ne_eq, decide_eq_true_eq, hne, not_false_iff, and_true]
  rcases hy with hy | hy
  · exact Or.inl (by simpa using ht hy)
  · exact Or.inr hy

/-- Taking a pair of compounds apart brings in no variables. -/
theorem vars_zip_subset (h k : Head) (as bs : List Pattern) (eqs : List Equation) :
    vars (as.zip bs ++ eqs) ⊆ vars ((.node h as, .node k bs) :: eqs) := by
  intro y hy
  rw [vars_append] at hy
  have hv : vars ((.node h as, .node k bs) :: eqs) =
      (as.flatMap Pattern.vars ++ bs.flatMap Pattern.vars) ++ vars eqs := by
    simp [vars, Pattern.vars]
  rw [hv]
  rcases List.mem_append.1 hy with hy | hy
  · exact List.mem_append_left _ (mem_vars_zip hy)
  · exact List.mem_append_right _ hy

/-- Taking a pair of compounds apart makes the equations smaller. -/
theorem size_zip_lt (h k : Head) (as bs : List Pattern) (eqs : List Equation) :
    size (as.zip bs ++ eqs) < size ((.node h as, .node k bs) :: eqs) := by
  have := size_zip as bs
  simp only [size_append, size, Pattern.size]
  omega

/-- Dropping an equation brings in no variables. -/
theorem vars_tail_subset (e : Equation) (eqs : List Equation) : vars eqs ⊆ vars (e :: eqs) := by
  intro y hy
  simp only [vars, List.flatMap_cons, List.mem_append]
  exact Or.inr hy

/-- Dropping an equation makes the equations smaller. -/
theorem size_tail_lt (e : Equation) (eqs : List Equation) : size eqs < size (e :: eqs) := by
  have := Pattern.size_pos e.1
  simp only [size]
  omega

end Equation

open Equation in
/-- The bindings that solve equations, in the order in which they are found. -/
def solve (eqs : List Equation) : Option Bindings :=
  match eqs with
  | [] => some []
  | (a, b) :: rest =>
    if a = b then solve rest
    else
      match a, b with
      | .var x, t =>
        if x ∈ t.vars then none else (solve (eliminate x t rest)).map ((x, t) :: ·)
      | t, .var x =>
        if x ∈ t.vars then none else (solve (eliminate x t rest)).map ((x, t) :: ·)
      | .node h as, .node k bs =>
        if h = k ∧ as.length = bs.length then solve (as.zip bs ++ rest) else none
      | _, _ => none
termination_by (distinct (vars eqs), size eqs)
decreasing_by
  · exact Prod.Lex.right' _ (distinct_le_of_subset (vars_tail_subset _ _)) (size_tail_lt _ _)
  · exact Prod.Lex.left _ _ (distinct_eliminate_lt ‹_› (by simp [Pattern.vars]) (by simp))
  · exact Prod.Lex.left _ _ (distinct_eliminate_lt ‹_› (by simp [Pattern.vars]) (by simp))
  · exact Prod.Lex.right' _ (distinct_le_of_subset (vars_zip_subset _ _ _ _ _)) (size_zip_lt _ _ _ _ _)

/-- Bindings that extend those at hand and make two patterns equal. -/
def unify (a b : Pattern) (s : Bindings) : Option Bindings :=
  (solve [(s.apply a, s.apply b)]).map (s ++ ·)

/-- Bindings that extend those at hand and make two lists of patterns equal, pair by pair. -/
def unifyAll (as bs : List Pattern) (s : Bindings) : Option Bindings :=
  if as.length = bs.length then
    (solve ((as.map s.apply).zip (bs.map s.apply))).map (s ++ ·)
  else none

/-- Whether two patterns can be made equal. -/
def unifiable (a b : Pattern) : Bool :=
  (unify a b []).isSome

end Refutation
