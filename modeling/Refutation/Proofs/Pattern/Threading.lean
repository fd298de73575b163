import Refutation.Proofs.Pattern.Unification

/-!
# Bindings passed from equation to equation

When `solve` binds a variable, it eliminates the variable from the equations that remain. Applying
the bindings found so far does the same to equations that come later. So equations can be solved in
parts, where the bindings of one part are applied to the next.

* `Bindings.Acyclic.apply_absorbs`: applying some of the bindings first makes no difference.
* `Bindings.Acyclic.apply_concat`: one more binding is applied by eliminating its variable.
* `solve_append`: **equations are solved part by part.**
* `map_solve_cons`: so lists are unified pair by pair.
-/

namespace Refutation

open Equation Bindings

namespace Bindings

variable {s r : Bindings} {p t : Pattern} {x : String}

/-! ## Applying bindings -/

/-- What respects bindings respects some of them. -/
theorem Respects.of_lookup {T : String → Pattern} (hT : Respects T r)
    (h : ∀ x q, s.lookup x = some q → r.lookup x = some q) : Respects T s :=
  fun x q hq => hT x q (h x q hq)

theorem apply_node (s : Bindings) (k : Head) (args : List Pattern) :
    s.apply (.node k args) = .node k (args.map s.apply) := by
  have hargs : args.map (Pattern.bind s.ending) = args.map s.apply :=
    List.map_congr_left fun a _ => (apply_eq_bind s a).symm
  rw [apply_eq_bind, Pattern.bind, Pattern.bindList_eq_map, hargs]

/-- Bindings that change nothing in a pattern change nothing in its arguments. -/
theorem map_apply_args {k : Head} {args : List Pattern} (h : s.apply (.node k args) = .node k args) :
    args.map s.apply = args := by
  rw [apply_node] at h
  exact (Pattern.node.inj h).2

/-- Bindings change nothing in a pattern without bound variables. -/
theorem apply_of_free (h : ∀ x ∈ p.vars, s.lookup x = none) : s.apply p = p := by
  have hend : ∀ x ∈ p.vars, s.ending x = .var x := fun x hx => chase_var_of_lookup_none (h x hx)
  rw [apply_eq_bind, Pattern.bind_congr hend, Pattern.bind_var]

theorem Acyclic.apply_apply (hs : s.Acyclic) (p : Pattern) : s.apply (s.apply p) = s.apply p :=
  apply_of_free fun _ hx => hs.lookup_of_mem_apply hx

/-- A bound variable is followed to its pattern. -/
theorem Acyclic.apply_var (hs : s.Acyclic) {q : Pattern} (h : s.lookup x = some q) :
    s.apply (.var x) = s.apply q := by
  rw [apply_eq_bind s q]
  exact hs.respects_ending x q h

/-- **Applying some of the bindings first makes no difference.** -/
theorem Acyclic.apply_absorbs (hr : r.Acyclic)
    (h : ∀ x q, s.lookup x = some q → r.lookup x = some q) (p : Pattern) :
    r.apply (s.apply p) = r.apply p := by
  have hs : Respects r.ending s := hr.respects_ending.of_lookup h
  rw [apply_eq_bind r, apply_eq_bind r, hs.bind_apply]

/-- **One more binding is applied by putting its pattern for its variable**, if the pattern has only
other variables and none of them is bound. -/
theorem Acyclic.apply_concat (hs : s.Acyclic) (hx : s.lookup x = none)
    (ht : ∀ y ∈ t.vars, s.lookup y = none) (hxt : x ∉ t.vars) (p : Pattern) :
    (s ++ [(x, t)]).apply p = (s.apply p).bind fun y => if y = x then t else .var y := by
  have hr : (s ++ [(x, t)]).Acyclic := hs.concat ht hxt
  have hfree : ∀ y, s.lookup y = none → y ≠ x → (s ++ [(x, t)]).lookup y = none := by
    intro y hy hne
    rw [lookup_concat, hy, if_neg hne]; rfl
  have hkept : ∀ y q, s.lookup y = some q → (s ++ [(x, t)]).lookup y = some q := by
    intro y q hq
    rw [lookup_concat, hq]; rfl
  rw [← hr.apply_absorbs hkept, apply_eq_bind]
  refine Pattern.bind_congr fun y hy => ?_
  have hy' : s.lookup y = none := hs.lookup_of_mem_apply hy
  by_cases hyx : y = x
  · have hlook : (s ++ [(x, t)]).lookup x = some t := by rw [lookup_concat, hx, if_pos rfl]; rfl
    rw [if_pos hyx, hyx]
    calc (s ++ [(x, t)]).apply (.var x) = (s ++ [(x, t)]).apply t := hr.apply_var hlook
      _ = t := apply_of_free fun z hz => hfree z (ht z hz) fun hzx => hxt (hzx ▸ hz)
  · rw [if_neg hyx]
    exact chase_var_of_lookup_none (hfree y hy' hyx)

end Bindings

/-! ## Equations under bindings -/

/-- The equations with bindings applied to both sides. -/
def Equation.applied (s : Bindings) (eqs : List Equation) : List Equation :=
  eqs.map (Prod.map s.apply s.apply)

variable {s new : Bindings} {eqs : List Equation} {a b t : Pattern} {x : String}

theorem applied_append (s : Bindings) (as bs : List Equation) :
    applied s (as ++ bs) = applied s as ++ applied s bs :=
  List.map_append

theorem zip_map_apply (s : Bindings) (as bs : List Pattern) :
    (as.map s.apply).zip (bs.map s.apply) = applied s (as.zip bs) :=
  List.zip_map

/-- No variable is left in the equations that has a binding. -/
theorem Bindings.Acyclic.free_applied (hs : s.Acyclic) (eqs : List Equation) :
    Free s (applied s eqs) := by
  intro x hx
  simp only [applied, vars, List.mem_flatMap, List.mem_map, List.mem_append] at hx
  obtain ⟨_, ⟨e, -, rfl⟩, hx | hx⟩ := hx
  · exact hs.lookup_of_mem_apply hx
  · exact hs.lookup_of_mem_apply hx

/-- What is bound next is eliminated from the equations that come later. -/
theorem Bindings.Acyclic.eliminate_applied (hs : s.Acyclic) (hx : s.lookup x = none)
    (ht : ∀ y ∈ t.vars, s.lookup y = none) (hxt : x ∉ t.vars) (eqs : List Equation) :
    eliminate x t (applied s eqs) = applied (s ++ [(x, t)]) eqs := by
  unfold eliminate applied
  rw [List.map_map]
  refine List.map_congr_left fun e _ => ?_
  rw [Prod.map, hs.apply_concat hx ht hxt, hs.apply_concat hx ht hxt]
  rfl

/-! ## Solving in parts -/

theorem solve_same (a : Pattern) (eqs : List Equation) : solve ((a, a) :: eqs) = solve eqs := by
  conv_lhs => unfold solve
  rw [if_pos rfl]

/-- A variable that is bound in one part is one binding more for the next. -/
theorem map_solve_eliminate {e : Equation} {rest : List Equation} (hs : s.Acyclic)
    (he : e = (.var x, t) ∨ e = (t, .var x)) (hx : x ∉ t.vars) (hfree : Free s (e :: eqs))
    (h : solve (eliminate x t eqs ++ applied (s ++ [(x, t)]) rest) = (solve (eliminate x t eqs)).bind
      fun new => (solve (applied (s ++ [(x, t)] ++ new) rest)).map (new ++ ·)) :
    (solve (eliminate x t (eqs ++ applied s rest))).map ((x, t) :: ·) =
      ((solve (eliminate x t eqs)).map ((x, t) :: ·)).bind
        fun new => (solve (applied (s ++ new) rest)).map (new ++ ·) := by
  obtain ⟨hlook, ht⟩ := hfree.bound he
  have helim : eliminate x t (eqs ++ applied s rest) =
      eliminate x t eqs ++ applied (s ++ [(x, t)]) rest := by
    rw [← hs.eliminate_applied hlook ht hx]
    exact List.map_append
  rw [helim, h, Option.map_bind, Option.bind_map]
  refine congrArg _ (funext fun new => ?_)
  simp only [Function.comp_apply, Option.map_map, List.append_assoc, List.singleton_append]
  rfl

/-- **Equations are solved part by part.** The bindings that the first part gives are applied to
the second. -/
theorem solve_append (hs : s.Acyclic) (hfree : Free s eqs) (rest : List Equation) :
    solve (eqs ++ applied s rest) =
      (solve eqs).bind fun new => (solve (applied (s ++ new) rest)).map (new ++ ·) := by
  fun_induction solve eqs generalizing s with
  | case1 => simp
  | case2 a eqs ih => rw [List.cons_append, solve_same, ih hs hfree.tail]
  | case3 eqs x t hx hne => rw [List.cons_append, solve, if_neg hne, if_pos hx]; rfl
  | case4 eqs x t hx hne ih =>
    obtain ⟨-, ht⟩ := hfree.bound (Or.inl rfl)
    have hrest := ih (hs.concat ht hx) (hfree.eliminate (Or.inl rfl) hx)
    rw [List.cons_append, solve, if_neg hne, if_neg hx]
    exact map_solve_eliminate hs (Or.inl rfl) hx hfree hrest
  | case5 eqs t x hvar hx hne =>
    rw [List.cons_append, solve.eq_3 _ _ _ hvar, if_neg hne, if_pos hx]; rfl
  | case6 eqs t x hvar hx hne ih =>
    obtain ⟨-, ht⟩ := hfree.bound (Or.inr rfl)
    have hrest := ih (hs.concat ht hx) (hfree.eliminate (Or.inr rfl) hx)
    rw [List.cons_append, solve.eq_3 _ _ _ hvar, if_neg hne, if_neg hx]
    exact map_solve_eliminate hs (Or.inr rfl) hx hfree hrest
  | case7 eqs k as k' bs hk hne ih =>
    obtain ⟨rfl, hlen⟩ := hk
    rw [List.cons_append, solve, if_neg hne, if_pos ⟨rfl, hlen⟩, ← List.append_assoc,
      ih hs hfree.split]
  | case8 eqs k as k' bs hk hne => rw [List.cons_append, solve, if_neg hne, if_neg hk]; rfl
  | case9 a b eqs hne ha hb hnode =>
    rw [List.cons_append, solve.eq_5 _ _ _ ha hb hnode, if_neg hne]; rfl

/-- Applying the bindings found brings in no variables but those of the equations solved. -/
theorem Solved.vars_applied (h : Solved eqs new) (hs : s.Acyclic) (hfree : Free s eqs)
    (rest : List Equation) : vars (applied (s ++ new) rest) ⊆ vars eqs ++ vars (applied s rest) := by
  induction h generalizing s with
  | nil =>
    rw [List.append_nil]
    exact List.subset_append_right _ _
  | drop h ih =>
    intro y hy
    have hmem := List.mem_append.1 (ih hs hfree.tail hy)
    exact List.mem_append.2 (hmem.imp_left (vars_tail_subset _ _ ·))
  | @bind e x t eqs new he hx h ih =>
    intro y hy
    obtain ⟨hlook, ht⟩ := hfree.bound he
    have happ : s ++ (x, t) :: new = s ++ [(x, t)] ++ new := by simp
    rw [happ] at hy
    rcases List.mem_append.1 (ih (hs.concat ht hx) (hfree.eliminate he hx) hy) with hy | hy
    · exact List.mem_append_left _ (vars_eliminate_subset he hx _ hy)
    · rw [← hs.eliminate_applied hlook ht hx] at hy
      obtain ⟨-, hy⟩ := mem_vars_eliminate hx hy
      exact List.mem_append.2
        (hy.imp_left fun hy => vars_bound_subset he _ (List.mem_cons_of_mem _ hy))
  | split hlen h ih =>
    intro y hy
    have hmem := List.mem_append.1 (ih hs hfree.split hy)
    exact List.mem_append.2 (hmem.imp_left (vars_zip_subset _ _ _ _ _ ·))

/-- The bindings at hand together with those that a part gives are acyclic. -/
theorem Bindings.Acyclic.of_map_solve {r : Bindings} (hs : s.Acyclic)
    (h : (solve (applied s eqs)).map (s ++ ·) = some r) : r.Acyclic := by
  obtain ⟨new, hnew, rfl⟩ := Option.map_eq_some_iff.1 h
  exact (solved_of_solve hnew).acyclic hs (hs.free_applied eqs)

/-! ## Unification pair by pair -/

theorem map_solve_nil (s : Bindings) : (solve []).map (s ++ ·) = some s := by
  rw [solve, Option.map_some, List.append_nil]

theorem unify_eq_solve (a b : Pattern) (s : Bindings) :
    unify a b s = (solve (applied s [(a, b)])).map (s ++ ·) := rfl

theorem Bindings.Acyclic.of_unify {r : Bindings} (hs : s.Acyclic) (h : unify a b s = some r) :
    r.Acyclic := by
  rw [unify_eq_solve] at h
  exact hs.of_map_solve h

theorem unifyAll_eq_solve {as bs : List Pattern} (hlen : as.length = bs.length) (s : Bindings) :
    unifyAll as bs s = (solve (applied s (as.zip bs))).map (s ++ ·) := by
  rw [unifyAll, if_pos hlen, zip_map_apply]

/-- **Equations are solved one after the other**, and the bindings of one are passed on to the
next. -/
theorem map_solve_cons (hs : s.Acyclic) (e : Equation) (eqs : List Equation) :
    (solve (applied s (e :: eqs))).map (s ++ ·) =
      (unify e.1 e.2 s).bind fun r => (solve (applied r eqs)).map (r ++ ·) := by
  have hcons : applied s (e :: eqs) = applied s [e] ++ applied s eqs := rfl
  rw [hcons, solve_append hs (hs.free_applied [e]), unify_eq_solve, Option.map_bind,
    Option.bind_map]
  refine congrArg _ (funext fun new => ?_)
  simp only [Function.comp_apply, Option.map_map, List.append_assoc]
  rfl

end Refutation
