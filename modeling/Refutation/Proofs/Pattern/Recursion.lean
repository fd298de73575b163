import Refutation.Proofs.Pattern.Threading

/-!
# Unification as a recursion

Unification can be told as three procedures that call each other. Bindings are applied to a pattern
by following a bound variable to its pattern and by going through the arguments of a head. Two
patterns are unified by applying the bindings to both; a variable that is left is bound, and equal
heads hand on their arguments. Lists are unified pair by pair, and the bindings of one pair are
passed to the next. `Call.routine` tells what each of them does between its calls.

None of the patterns that are passed need be smaller than those before. What becomes less is the
number of variables that are left when the bindings are applied, or else the size of what is left
(`Call.weight`). Bindings that are applied have an order of their own: from a bound variable to the
variables of its pattern.

* `Call.result_routine`: the functions of this library answer as the procedures do.
* `Call.Makes.acyclic`: acyclic bindings are passed on as acyclic bindings.
* `Call.recursion_ends`: **from acyclic bindings the recursion comes to an end, all bindings passed
  on the way are acyclic, and what is returned is what the functions of this library return.**
* `Bindings.apply_follows_chains`: **acyclic bindings leave no variable bound, applied twice they do
  what they do once, and more bindings take in what fewer have done before.**
-/

namespace Refutation

open Equation Bindings
open Relation (ReflTransGen)

/-- A call of one of the procedures. -/
inductive Call where
  /-- Apply bindings to a pattern. -/
  | apply (s : Bindings) (p : Pattern)
  /-- Unify two patterns. -/
  | unify (a b : Pattern) (s : Bindings)
  /-- Unify two lists of patterns. -/
  | unifyAll (as bs : List Pattern) (s : Bindings)

namespace Call

/-- The bindings that are passed. -/
def bindings : Call → Bindings
  | .apply s _ => s
  | .unify _ _ s => s
  | .unifyAll _ _ s => s

/-- The type of what is returned. -/
abbrev Result : Call → Type
  | .apply _ _ => Pattern
  | .unify _ _ _ => Option Bindings
  | .unifyAll _ _ _ => Option Bindings

/-- What the functions of this library return. -/
def answer : (c : Call) → c.Result
  | .apply s p => s.apply p
  | .unify a b s => Refutation.unify a b s
  | .unifyAll as bs s => Refutation.unifyAll as bs s

end Call

/-- What a procedure does: it returns a value, or it makes a call and goes on with what the call
returns. -/
inductive Routine (α : Type) : Type where
  | done (v : α)
  | call (c : Call) (next : c.Result → Routine α)

namespace Routine

variable {α β : Type}

/-- One routine after the other. -/
def bind : Routine α → (α → Routine β) → Routine β
  | .done v, k => k v
  | .call c next, k => .call c fun r => (next r).bind k

instance : Monad Routine where
  pure := .done
  bind := bind

/-- Make a call and return what it returns. -/
def ask (c : Call) : Routine c.Result :=
  .call c .done

/-- What a routine returns if each call returns its answer. -/
def result : Routine α → α
  | .done v => v
  | .call c next => (next c.answer).result

/-- The calls that a routine makes if each call returns its answer. -/
def calls : Routine α → List Call
  | .done _ => []
  | .call c next => c :: (next c.answer).calls

/-- What a routine returns if calls return what `f` gives, and nothing if one of them returns
nothing. -/
def run? (f : (c : Call) → Option c.Result) : Routine α → Option α
  | .done v => some v
  | .call c next => (f c).bind fun r => (next r).run? f

@[simp] theorem result_pure (v : α) : (pure v : Routine α).result = v := rfl

@[simp] theorem calls_pure (v : α) : (pure v : Routine α).calls = [] := rfl

@[simp] theorem result_ask (c : Call) : (ask c).result = c.answer := rfl

@[simp] theorem calls_ask (c : Call) : (ask c).calls = [c] := rfl

@[simp] theorem result_bind (m : Routine α) (k : α → Routine β) :
    (m >>= k).result = (k m.result).result := by
  induction m with
  | done v => rfl
  | call c next ih => exact ih c.answer

@[simp] theorem calls_bind (m : Routine α) (k : α → Routine β) :
    (m >>= k).calls = m.calls ++ (k m.result).calls := by
  induction m with
  | done v => rfl
  | call c next ih => exact congrArg (c :: ·) (ih c.answer)

/-- Only the calls that are made count. -/
theorem run?_eq_result {f : (c : Call) → Option c.Result} {m : Routine α}
    (h : ∀ c ∈ m.calls, f c = some c.answer) : m.run? f = some m.result := by
  induction m with
  | done v => rfl
  | call c next ih =>
    obtain ⟨hc, hnext⟩ := List.forall_mem_cons.1 h
    rw [run?, hc]
    exact ih c.answer hnext

/-! ## The procedures -/

/-- Apply bindings to all patterns of a list. -/
def applyAll (s : Bindings) : List Pattern → Routine (List Pattern)
  | [] => return []
  | p :: ps => do return (← ask (.apply s p)) :: (← applyAll s ps)

/-- Apply bindings: a bound variable is followed to its pattern. -/
def apply (s : Bindings) : Pattern → Routine Pattern
  | .var x =>
    match s.lookup x with
    | some q => ask (.apply s q)
    | none => return .var x
  | .node k args => do return .node k (← applyAll s args)
  | p => return p

/-- Bind a variable, unless it occurs in the pattern. -/
def assign (x : String) (t : Pattern) (s : Bindings) : Option Bindings :=
  if t.occurs x then none else some (s ++ [(x, t)])

/-- Unify two patterns to which the bindings have been applied. -/
def compare (a b : Pattern) (s : Bindings) : Routine (Option Bindings) :=
  if a = b then return some s
  else
    match a, b with
    | .var x, t => return assign x t s
    | t, .var x => return assign x t s
    | .node k as, .node l bs => if k = l then ask (.unifyAll as bs s) else return none
    | _, _ => return none

/-- Unify the sides of equations, one equation after the other. -/
def thread : List Equation → Bindings → Routine (Option Bindings)
  | [], s => return some s
  | e :: eqs, s => do
    match ← ask (.unify e.1 e.2 s) with
    | some r => thread eqs r
    | none => return none

end Routine

namespace Call

open Routine

/-- What is done for a call. -/
def routine : (c : Call) → Routine c.Result
  | .apply s p => Routine.apply s p
  | .unify a b s => do compare (← ask (.apply s a)) (← ask (.apply s b)) s
  | .unifyAll as bs s => if as.length = bs.length then thread (as.zip bs) s else return none

/-- One call makes another. -/
def Makes (c d : Call) : Prop :=
  d ∈ c.routine.calls

/-- No way from call to call goes on for ever. -/
abbrev Ends (c : Call) : Prop :=
  Acc (fun d c : Call => c.Makes d) c

/-- What a call returns if calls may be nested only so deep; nothing if that is not enough. -/
def within : Nat → (c : Call) → Option c.Result
  | 0, _ => none
  | n + 1, c => c.routine.run? (within n)

end Call

namespace Routine

variable {s : Bindings} {a b : Pattern} {eqs : List Equation} {d : Call}

/-! ## What is returned -/

theorem result_applyAll (s : Bindings) (ps : List Pattern) :
    (applyAll s ps).result = ps.map s.apply := by
  induction ps with
  | nil => rfl
  | cons p ps ih =>
    rw [applyAll, result_bind, result_bind, ih]
    rfl

theorem result_apply (hs : s.Acyclic) (p : Pattern) : (apply s p).result = s.apply p := by
  cases p with
  | var x =>
    cases hx : s.lookup x with
    | none =>
      rw [apply, hx]
      exact (chase_var_of_lookup_none hx).symm
    | some q =>
      rw [apply, hx]
      exact (hs.apply_var hx).symm
  | node k args =>
    rw [apply, result_bind, result_applyAll, apply_node]
    rfl
  | _ => exact (apply_of_free fun x hx => (List.not_mem_nil hx).elim).symm

theorem map_solve_assign {x : String} {t : Pattern} (s : Bindings) :
    (if x ∈ t.vars then none else (solve (eliminate x t [])).map ((x, t) :: ·)).map (s ++ ·) =
      assign x t s := by
  have hocc : t.occurs x = true ↔ x ∈ t.vars := List.contains_iff_mem
  unfold assign
  by_cases hx : x ∈ t.vars
  · rw [if_pos hx, if_pos (hocc.2 hx)]
    rfl
  · rw [if_neg hx, if_neg fun h => hx (hocc.1 h)]
    show ((solve []).map _).map _ = _
    rw [solve]
    rfl

/-- Comparing two patterns to which the bindings have been applied solves the equation between
them. -/
theorem result_compare (ha : s.apply a = a) (hb : s.apply b = b) :
    (compare a b s).result = (solve [(a, b)]).map (s ++ ·) := by
  fun_cases compare a b s with
  | case1 => rw [solve_same, map_solve_nil]; rfl
  | case2 x t hne => rw [solve, if_neg hne, map_solve_assign]; rfl
  | case3 t x hvar hne => rw [solve.eq_3 _ _ _ hvar, if_neg hne, map_solve_assign]; rfl
  | case4 as k bs hne =>
    rw [solve, if_neg hne, List.append_nil]
    have hargs : applied s (as.zip bs) = as.zip bs := by
      rw [← zip_map_apply, map_apply_args ha, map_apply_args hb]
    by_cases hlen : as.length = bs.length
    · rw [if_pos ⟨rfl, hlen⟩, result_ask, Call.answer, unifyAll_eq_solve hlen, hargs]
    · rw [if_neg fun h => hlen h.2, result_ask, Call.answer, unifyAll, if_neg hlen]
      rfl
  | case5 as k l bs hk hne => rw [solve, if_neg hne, if_neg fun h => hk h.1]; rfl
  | case6 a b hne hx hy hnode => rw [solve.eq_5 _ _ _ hx hy hnode, if_neg hne]; rfl

theorem result_thread (hs : s.Acyclic) (eqs : List Equation) :
    (thread eqs s).result = (solve (applied s eqs)).map (s ++ ·) := by
  induction eqs generalizing s with
  | nil => exact (map_solve_nil s).symm
  | cons e eqs ih =>
    rw [map_solve_cons hs, thread, result_bind, result_ask, Call.answer]
    cases hr : unify e.1 e.2 s with
    | none => rfl
    | some r => exact ih (hs.of_unify hr)

/-! ## Which calls are made -/

theorem calls_applyAll (s : Bindings) (ps : List Pattern) :
    (applyAll s ps).calls = ps.map (.apply s) := by
  induction ps with
  | nil => rfl
  | cons p ps ih =>
    rw [applyAll, calls_bind, calls_bind, ih, calls_pure, List.append_nil]
    rfl

theorem mem_calls_compare (h : d ∈ (compare a b s).calls) :
    ∃ k as bs, a = .node k as ∧ b = .node k bs ∧ d = .unifyAll as bs s := by
  revert h
  fun_cases compare a b s with
  | case4 as k bs hne => exact fun h => ⟨k, as, bs, rfl, rfl, List.mem_singleton.1 h⟩
  | _ => exact fun h => (List.not_mem_nil h).elim

/-- An equation is reached with the bindings that those before it have given. -/
theorem mem_calls_thread (hs : s.Acyclic) (h : d ∈ (thread eqs s).calls) :
    ∃ before e after r, eqs = before ++ e :: after ∧
      (solve (applied s before)).map (s ++ ·) = some r ∧ d = .unify e.1 e.2 r := by
  induction eqs generalizing s with
  | nil => cases h
  | cons e eqs ih =>
    rw [thread, calls_bind, calls_ask, result_ask, Call.answer, List.singleton_append,
      List.mem_cons] at h
    rcases h with rfl | h
    · exact ⟨[], e, eqs, s, rfl, map_solve_nil s, rfl⟩
    · cases hr : unify e.1 e.2 s with
      | none => rw [hr] at h; cases h
      | some r =>
        rw [hr] at h
        obtain ⟨before, e', after, r', rfl, hr', rfl⟩ := ih (hs.of_unify hr) h
        refine ⟨e :: before, e', after, r', rfl, ?_, rfl⟩
        rw [map_solve_cons hs, hr]
        exact hr'

end Routine

namespace Call

variable {s : Bindings} {c d : Call} {a b p : Pattern} {as bs : List Pattern}

/-- **The functions of this library answer as the procedures do**, if each call returns its
answer. -/
theorem result_routine (hc : c.bindings.Acyclic) : c.routine.result = c.answer := by
  cases c with
  | apply s p => exact Routine.result_apply hc p
  | unify a b s =>
    rw [routine, Routine.result_bind, Routine.result_bind]
    exact Routine.result_compare (hc.apply_apply a) (hc.apply_apply b)
  | unifyAll as bs s =>
    have hs : s.Acyclic := hc
    rw [routine, answer]
    by_cases hlen : as.length = bs.length
    · rw [if_pos hlen, Routine.result_thread hs, unifyAll_eq_solve hlen]
    · rw [if_neg hlen, Refutation.unifyAll, if_neg hlen]
      rfl

/-- Applying bindings to a pattern calls for a pattern that a variable is bound to, or for the
arguments of a head. -/
theorem Makes.of_apply (h : (Call.apply s p).Makes d) :
    (∃ x q, p = .var x ∧ s.lookup x = some q ∧ d = .apply s q) ∨
      ∃ k args q, p = .node k args ∧ q ∈ args ∧ d = .apply s q := by
  rw [Makes, routine] at h
  cases p with
  | var x =>
    cases hx : s.lookup x with
    | none => rw [Routine.apply, hx] at h; cases h
    | some q =>
      rw [Routine.apply, hx] at h
      exact Or.inl ⟨x, q, rfl, hx, List.mem_singleton.1 h⟩
  | node k args =>
    rw [Routine.apply, Routine.calls_bind, Routine.calls_applyAll, Routine.calls_pure,
      List.append_nil] at h
    obtain ⟨q, hq, rfl⟩ := List.mem_map.1 h
    exact Or.inr ⟨k, args, q, rfl, hq, rfl⟩
  | _ => cases h

/-- Unifying two patterns calls for the bindings to be applied to both, and for the arguments of
equal heads to be unified. -/
theorem Makes.of_unify (h : (Call.unify a b s).Makes d) :
    d = .apply s a ∨ d = .apply s b ∨
      ∃ k as bs, s.apply a = .node k as ∧ s.apply b = .node k bs ∧ d = .unifyAll as bs s := by
  rw [Makes, routine, Routine.calls_bind, Routine.calls_bind, Routine.calls_ask, Routine.calls_ask,
    List.singleton_append, List.singleton_append, List.mem_cons, List.mem_cons] at h
  exact h.imp_right (Or.imp_right Routine.mem_calls_compare)

/-- Unifying two lists calls for their pairs to be unified, each with the bindings that the pairs
before it have given. -/
theorem Makes.of_unifyAll (hs : s.Acyclic) (h : (Call.unifyAll as bs s).Makes d) :
    ∃ before e after r, as.zip bs = before ++ e :: after ∧
      (solve (applied s before)).map (s ++ ·) = some r ∧ d = .unify e.1 e.2 r := by
  rw [Makes, routine] at h
  by_cases hlen : as.length = bs.length
  · rw [if_pos hlen] at h
    exact Routine.mem_calls_thread hs h
  · rw [if_neg hlen] at h
    cases h

/-- **Acyclic bindings are passed on as acyclic bindings.** -/
theorem Makes.acyclic (hc : c.bindings.Acyclic) (h : c.Makes d) : d.bindings.Acyclic := by
  cases c with
  | apply s p => rcases h.of_apply with ⟨x, q, -, -, rfl⟩ | ⟨k, args, q, -, -, rfl⟩ <;> exact hc
  | unify a b s => rcases h.of_unify with rfl | rfl | ⟨k, as, bs, -, -, rfl⟩ <;> exact hc
  | unifyAll as bs s =>
    obtain ⟨before, e, after, r, -, hr, rfl⟩ := h.of_unifyAll hc
    exact Bindings.Acyclic.of_map_solve hc hr

/-! ## The end of the recursion -/

/-- How many variables are left when the bindings are applied, and how large what is left is; lists
weigh more than the pairs they consist of. -/
def weight : Call → Nat × Nat
  | .apply _ _ => (0, 0)
  | .unify a b s =>
    (distinct (vars (applied s [(a, b)])), 2 * size (applied s [(a, b)]))
  | .unifyAll as bs s =>
    (distinct (vars (applied s (as.zip bs))), 2 * size (applied s (as.zip bs)) + 1)

/-- The number of variables counts first. -/
def Lighter (c d : Call) : Prop :=
  Prod.Lex Nat.lt Nat.lt c.weight d.weight

theorem lighter_wf : WellFounded Lighter :=
  InvImage.wf weight (Prod.lex Nat.lt_wfRel Nat.lt_wfRel).wf

/-- The arguments of a head are smaller, and they have no other variables. -/
theorem lighter_args {k : Head} (hs : s.Acyclic) (ha : s.apply a = .node k as)
    (hb : s.apply b = .node k bs) : Lighter (.unifyAll as bs s) (.unify a b s) := by
  have hargs : applied s (as.zip bs) = as.zip bs := by
    rw [← zip_map_apply, map_apply_args (k := k) (by rw [← ha, hs.apply_apply]),
      map_apply_args (k := k) (by rw [← hb, hs.apply_apply])]
  have hpair : applied s [(a, b)] = [(.node k as, .node k bs)] := by
    rw [← ha, ← hb]
    rfl
  have hvars := vars_zip_subset k k as bs []
  have hsize := size_zip_lt k k as bs []
  rw [List.append_nil] at hvars hsize
  have hlt : 2 * size (as.zip bs) + 1 < 2 * size [(Pattern.node k as, Pattern.node k bs)] := by omega
  rw [Lighter, weight, weight, hargs, hpair]
  exact Prod.Lex.right' _ (distinct_le_of_subset hvars) hlt

/-- If the pairs before have bound nothing, a pair weighs less than the lists; else the variable that
was bound first is left no more. -/
theorem lighter_pair {before after : List Equation} {e : Equation} {r : Bindings} (hs : s.Acyclic)
    (hsplit : as.zip bs = before ++ e :: after)
    (hr : (solve (applied s before)).map (s ++ ·) = some r) :
    Lighter (.unify e.1 e.2 r) (.unifyAll as bs s) := by
  obtain ⟨new, hnew, rfl⟩ := Option.map_eq_some_iff.1 hr
  have hsolved : Solved (applied s before) new := solved_of_solve hnew
  have hfree : Free s (applied s before) := hs.free_applied before
  have hall : applied s (as.zip bs) = applied s before ++ (applied s [e] ++ applied s after) := by
    rw [hsplit, ← applied_append, ← applied_append]
    rfl
  have hvars : vars (applied (s ++ new) [e]) ⊆ vars (applied s (as.zip bs)) := by
    intro y hy
    rw [hall, vars_append, vars_append]
    rcases List.mem_append.1 (hsolved.vars_applied hs hfree [e] hy) with hy | hy
    · exact List.mem_append_left _ hy
    · exact List.mem_append_right _ (List.mem_append_left _ hy)
  rw [Lighter, weight, weight]
  cases new with
  | nil =>
    rw [List.append_nil] at hvars ⊢
    have hlt : 2 * size (applied s [e]) < 2 * size (applied s (as.zip bs)) + 1 := by
      rw [hall, size_append, size_append]
      omega
    exact Prod.Lex.right' _ (distinct_le_of_subset hvars) hlt
  | cons b new =>
    have hbound : b.1 ∈ vars (applied s (as.zip bs)) := by
      rw [hall, vars_append]
      exact List.mem_append_left _ (hsolved.mem_vars List.mem_cons_self)
    have hleft : ∀ y ∈ vars (applied (s ++ b :: new) [e]), y ≠ b.1 := by
      rintro y hy rfl
      have hnone := (hsolved.acyclic hs hfree).free_applied [e] b.1 hy
      rw [List.lookup_append, Option.or_eq_none_iff] at hnone
      simp at hnone
    refine Prod.Lex.left _ _ (distinct_lt_of_subset hbound fun y hy => ?_)
    exact List.mem_filter.2 ⟨hvars hy, by simpa using hleft y hy⟩

/-- Applying bindings comes to an end if it does for the variables of the pattern. -/
theorem ends_apply_of_vars (h : ∀ x ∈ p.vars, Ends (.apply s (.var x))) :
    Ends (.apply s p) := by
  induction p using Pattern.induct with
  | var x => exact h x (by simp [Pattern.vars])
  | node k args ih =>
    refine Acc.intro _ fun d hd => ?_
    rcases Makes.of_apply hd with ⟨x, q, hx, -, -⟩ | ⟨k', args', q, hargs, hq, rfl⟩
    · cases hx
    · cases hargs
      refine ih q hq fun x hx => h x ?_
      rw [Pattern.vars, Pattern.varsList_eq_flatMap]
      exact List.mem_flatMap.2 ⟨q, hq, hx⟩
  | _ =>
    refine Acc.intro _ fun d hd => ?_
    rcases Makes.of_apply hd with ⟨x, q, hx, -, -⟩ | ⟨k, args, q, hargs, -, -⟩
    · cases hx
    · cases hargs

/-- **Applying acyclic bindings comes to an end.** -/
theorem ends_apply (hs : s.Acyclic) (p : Pattern) : Ends (.apply s p) := by
  -- from a variable the way leads to the variables of its pattern
  have hvar : ∀ x, Ends (.apply s (.var x)) := by
    intro x
    induction x using hs.wellFounded.induction with
    | _ x ih =>
      refine Acc.intro _ fun d hd => ?_
      rcases Makes.of_apply hd with ⟨y, q, hy, hq, rfl⟩ | ⟨k, args, q, hargs, -, -⟩
      · cases hy
        exact ends_apply_of_vars fun z hz => ih z ⟨q, hq, hz⟩
      · cases hargs
  exact ends_apply_of_vars fun x _ => hvar x

/-- **The calls made from acyclic bindings come to an end.** -/
theorem ends_of_acyclic (hc : c.bindings.Acyclic) : c.Ends := by
  induction c using lighter_wf.induction with
  | _ c ih =>
    cases c with
    | apply s p => exact ends_apply hc p
    | unify a b s =>
      refine Acc.intro _ fun d hd => ?_
      rcases Makes.of_unify hd with rfl | rfl | ⟨k, as, bs, ha, hb, rfl⟩
      · exact ends_apply hc a
      · exact ends_apply hc b
      · exact ih _ (lighter_args hc ha hb) hc
    | unifyAll as bs s =>
      refine Acc.intro _ fun d hd => ?_
      obtain ⟨before, e, after, r, hsplit, hr, rfl⟩ := Makes.of_unifyAll hc hd
      exact ih _ (lighter_pair hc hsplit hr) (Makes.acyclic hc hd)

/-- If the calls that are made come to an end, some depth of nesting is enough. -/
theorem exists_within (hends : c.Ends) (hc : c.bindings.Acyclic) :
    ∃ n, ∀ m, n ≤ m → c.within m = some c.answer := by
  induction hends with
  | intro c _ ih =>
    -- a depth that is enough for all calls that are made
    have hall : ∀ l : List Call, (∀ d ∈ l, c.Makes d) →
        ∃ n, ∀ d ∈ l, ∀ m, n ≤ m → d.within m = some d.answer := by
      intro l
      induction l with
      | nil => exact fun _ => ⟨0, fun d hd => by cases hd⟩
      | cons d l ihl =>
        intro hl
        obtain ⟨hd, hl⟩ := List.forall_mem_cons.1 hl
        obtain ⟨n, hn⟩ := ih d hd (hd.acyclic hc)
        obtain ⟨n', hn'⟩ := ihl hl
        refine ⟨max n n', List.forall_mem_cons.2 ⟨fun m hm => hn m (by omega), ?_⟩⟩
        exact fun d' hd' m hm => hn' d' hd' m (by omega)
    obtain ⟨n, hn⟩ := hall c.routine.calls fun d hd => hd
    refine ⟨n + 1, fun m hm => ?_⟩
    obtain ⟨m, rfl⟩ : ∃ k, m = k + 1 := ⟨m - 1, by omega⟩
    rw [within, Routine.run?_eq_result fun d hd => hn d hd m (by omega), result_routine hc]

/-- **Unification terminates.** From acyclic bindings the calls come to an end: there is no way from
call to call that goes on for ever. All bindings that are passed on the way are acyclic, and each
call on it returns what the function of this library returns. So with calls nested deep enough,
that is what the recursion returns. -/
theorem recursion_ends (c : Call) (hc : c.bindings.Acyclic) :
    c.Ends ∧
    (∀ d, ReflTransGen Makes c d → d.bindings.Acyclic ∧ d.routine.result = d.answer) ∧
    ∃ n, ∀ m, n ≤ m → c.within m = some c.answer := by
  have hends : c.Ends := ends_of_acyclic hc
  refine ⟨hends, fun d hd => ?_, exists_within hends hc⟩
  have hd' : d.bindings.Acyclic := by
    induction hd with
    | refl => exact hc
    | tail _ h ih => exact h.acyclic ih
  exact ⟨hd', result_routine hd'⟩

/-- Lists `x, z` and `f(c), x`, with `x` bound to `f(y)`: the first pair binds `y`, and the second one
is reached with that binding. -/
theorem recursion_ends_of_bound :
    let b : Pattern := .node (.fn "f") [.atom "c"]
    let s : Bindings := [("x", .node (.fn "f") [.var "y"])]
    let r : Bindings := s ++ [("y", .atom "c")]
    let c : Call := .unifyAll [.var "x", .var "z"] [b, .var "x"] s
    s.Acyclic ∧ c.Makes (.unify (.var "z") (.var "x") r) ∧ r.Acyclic ∧ c.Ends ∧
      ∃ n, c.within n = some (some (r ++ [("z", b)])) := by
  intro b s r c
  have hs : s.Acyclic := acyclic_nil.concat (fun _ _ => rfl) (by decide)
  have hx : s.apply (.var "x") = .node (.fn "f") [.var "y"] := rfl
  have hb : s.apply b = b := rfl
  have hr : Refutation.unify (.var "x") b s = some r := by
    rw [Refutation.unify, hx, hb]
    cbv
  have hmakes : c.Makes (.unify (.var "z") (.var "x") r) := by
    refine List.mem_cons_of_mem _ ?_
    show _ ∈ Routine.calls (Routine.bind _ _)
    rw [answer, hr]
    exact List.mem_cons_self
  have hz : r.apply (.var "z") = .var "z" := rfl
  have hxr : r.apply (.var "x") = b := rfl
  have hrz : Refutation.unify (.var "z") (.var "x") r = some (r ++ [("z", b)]) := by
    rw [Refutation.unify, hz, hxr]
    cbv
  have hanswer : c.answer = some (r ++ [("z", b)]) := by
    have hlen : [Pattern.var "x", .var "z"].length = [b, .var "x"].length := rfl
    rw [answer, unifyAll_eq_solve hlen, List.zip_cons_cons, map_solve_cons hs, hr, Option.bind_some,
      List.zip_cons_cons, map_solve_cons (hs.of_unify hr), hrz, Option.bind_some]
    exact map_solve_nil _
  obtain ⟨hends, hpassed, n, hn⟩ := recursion_ends c hs
  exact ⟨hs, hmakes, (hpassed _ (.single hmakes)).1, hends, n, hanswer ▸ hn n le_rfl⟩

end Call

/-! ## Laws of applying bindings -/

/-- **Laws of following chains.** Acyclic bindings are followed to an end: with calls nested deep
enough the recursion returns what `apply` gives. No bound variable occurs in it, so applying the
bindings a second time changes nothing. Acyclic bindings that hold all of these, and any others,
give the same whether these are applied first or not. -/
theorem Bindings.apply_follows_chains (s : Bindings) (hs : s.Acyclic) (p : Pattern) :
    (∃ n, ∀ m, n ≤ m → (Call.apply s p).within m = some (s.apply p)) ∧
    (∀ x, s.lookup x ≠ none → (s.apply p).occurs x = false) ∧
    s.apply (s.apply p) = s.apply p ∧
    ∀ r : Bindings, r.Acyclic → (∀ x q, s.lookup x = some q → r.lookup x = some q) →
      r.apply (s.apply p) = r.apply p := by
  refine ⟨Call.exists_within (Call.ends_apply hs p) hs, fun x hx => ?_, hs.apply_apply p,
    fun r hr hsr => hr.apply_absorbs hsr p⟩
  rw [Pattern.occurs, Bool.eq_false_iff, ne_eq, List.contains_iff_mem]
  exact fun hmem => hx (hs.lookup_of_mem_apply hmem)

/-- The chain of `x` leads through `f(y)` to `f(g(z))`, and with one more binding to `f(g(c))`. -/
theorem Bindings.apply_follows_chains_of_three :
    let f (t : Pattern) : Pattern := .node (.fn "f") [t]
    let g (t : Pattern) : Pattern := .node (.fn "g") [t]
    let s : Bindings := [("x", f (.var "y")), ("y", g (.var "z"))]
    let r : Bindings := s ++ [("z", .atom "c")]
    s.Acyclic ∧ r.Acyclic ∧ (∀ x q, s.lookup x = some q → r.lookup x = some q) ∧
      s.lookup "y" ≠ none ∧ s.apply (.var "x") = f (g (.var "z")) ∧
      (s.apply (.var "x")).occurs "y" = false ∧
      r.apply (s.apply (.var "x")) = f (g (.atom "c")) ∧
      ∃ n, (Call.apply s (.var "x")).within n = some (f (g (.var "z"))) := by
  intro f g s r
  have hx : Bindings.Acyclic [("x", f (.var "y"))] :=
    acyclic_nil.concat (fun _ _ => rfl) (by decide)
  have hs : s.Acyclic := hx.concat (t := g (.var "z")) (by decide) (by decide)
  have hr : r.Acyclic := hs.concat (t := .atom "c") (by decide) (by decide)
  have hsr : ∀ x q, s.lookup x = some q → r.lookup x = some q := by
    intro x q hq
    rw [List.lookup_append, hq, Option.some_or]
  have happly : s.apply (.var "x") = f (g (.var "z")) := rfl
  have hy : s.lookup "y" ≠ none := by decide
  obtain ⟨⟨n, hn⟩, hfree, -, habsorb⟩ := apply_follows_chains s hs (.var "x")
  refine ⟨hs, hr, hsr, hy, happly, hfree "y" hy, (habsorb r hr hsr).trans rfl, n, ?_⟩
  rw [← happly]
  exact hn n le_rfl

end Refutation
