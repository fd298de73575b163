import Refutation.Proofs.Pattern.Acyclic

/-!
# Unification is sound and complete, and its bindings are most general

`Solved eqs new` says step by step how equations lead to bindings; it is all that `solve`
can do (`solved_of_solve`). An assignment unifies equations if it makes their sides equal.

* `exists_solve`: **equations that some assignment unifies are solved.**
* `Solved.respects`: what unifies the equations respects the bindings found.
* `Solved.unifies`: what respects the bindings found unifies the equations. The bindings are
  read after others that leave the variables of the equations free.
* `Solved.acyclic`: the bindings found keep those others acyclic.

Unification applies the bindings at hand and solves the equations that result; applied
acyclic bindings leave no variable that they bind. So the facts about `solve` give
`unify_mostGeneral` and `unify_sound`, for pairs of patterns and for lists.
-/

namespace Refutation

open Equation Bindings

/-- An assignment makes the sides of all equations equal. -/
def Unifies (T : String → Pattern) (eqs : List Equation) : Prop :=
  ∀ e ∈ eqs, e.1.bind T = e.2.bind T

/-- How equations are solved: equal sides are dropped, a variable is bound and eliminated,
equal heads are taken apart. -/
inductive Solved : List Equation → Bindings → Prop
  | nil : Solved [] []
  | drop {a : Pattern} {eqs : List Equation} {new : Bindings} (h : Solved eqs new) :
      Solved ((a, a) :: eqs) new
  | bind {e : Equation} {x : String} {t : Pattern} {eqs : List Equation} {new : Bindings}
      (he : e = (.var x, t) ∨ e = (t, .var x)) (hx : x ∉ t.vars)
      (h : Solved (eliminate x t eqs) new) : Solved (e :: eqs) ((x, t) :: new)
  | split {k : Head} {as bs : List Pattern} {eqs : List Equation} {new : Bindings}
      (hlen : as.length = bs.length) (h : Solved (as.zip bs ++ eqs) new) :
      Solved ((.node k as, .node k bs) :: eqs) new

variable {T : String → Pattern} {eqs : List Equation} {new s : Bindings}

/-- This is all that `solve` can do. -/
theorem solved_of_solve (h : solve eqs = some new) : Solved eqs new := by
  fun_induction solve eqs generalizing new with
  | case1 => cases h; exact .nil
  | case2 a rest ih => exact .drop (ih h)
  | case3 => cases h
  | case4 rest x t hx hne ih =>
    obtain ⟨more, hmore, rfl⟩ := Option.map_eq_some_iff.1 h
    exact .bind (Or.inl rfl) hx (ih hmore)
  | case5 => cases h
  | case6 rest t x hvar hx hne ih =>
    obtain ⟨more, hmore, rfl⟩ := Option.map_eq_some_iff.1 h
    exact .bind (Or.inr rfl) hx (ih hmore)
  | case7 rest k as k' bs hk hne ih =>
    obtain ⟨rfl, hlen⟩ := hk
    exact .split hlen (ih h)
  | case8 => cases h
  | case9 => cases h

/-! ## Equations and assignments -/

theorem unifies_cons {e : Equation} :
    Unifies T (e :: eqs) ↔ e.1.bind T = e.2.bind T ∧ Unifies T eqs :=
  List.forall_mem_cons

/-- A variable can be eliminated where it is assigned what its replacement is. -/
theorem unifies_eliminate {x : String} {t : Pattern} (hx : T x = t.bind T) :
    Unifies T (eliminate x t eqs) ↔ Unifies T eqs := by
  have hbind : ∀ p : Pattern, (p.bind fun y => if y = x then t else .var y).bind T = p.bind T := by
    intro p
    rw [Pattern.bind_bind]
    refine Pattern.bind_congr fun y _ => ?_
    by_cases hy : y = x
    · rw [if_pos hy, hy, hx]
    · rw [if_neg hy]; rfl
  simp only [Unifies, eliminate, List.forall_mem_map, hbind]

/-- Equations between the members of two lists say that the lists become equal. -/
theorem forall_mem_zip {α : Type} {φ : Pattern → α} {as bs : List Pattern}
    (hlen : as.length = bs.length) :
    (∀ e ∈ as.zip bs, φ e.1 = φ e.2) ↔ as.map φ = bs.map φ := by
  induction as generalizing bs with
  | nil =>
    have hbs : bs = [] := List.eq_nil_of_length_eq_zero (by simpa using hlen.symm)
    simp [hbs]
  | cons a as ih =>
    cases bs with
    | nil => simp at hlen
    | cons b bs =>
      rw [List.zip_cons_cons, List.forall_mem_cons, ih (by simpa using hlen), List.map_cons,
        List.map_cons, List.cons.injEq]

theorem unifies_zip {as bs : List Pattern} (hlen : as.length = bs.length) :
    Unifies T (as.zip bs) ↔ as.map (Pattern.bind T) = bs.map (Pattern.bind T) :=
  forall_mem_zip hlen

/-- Taking equal heads apart changes nothing. -/
theorem unifies_split {k : Head} {as bs : List Pattern} (hlen : as.length = bs.length) :
    Unifies T ((.node k as, .node k bs) :: eqs) ↔ Unifies T (as.zip bs ++ eqs) := by
  have hargs : (Pattern.node k as).bind T = (Pattern.node k bs).bind T ↔ Unifies T (as.zip bs) := by
    rw [unifies_zip hlen, Pattern.bind, Pattern.bind, Pattern.bindList_eq_map,
      Pattern.bindList_eq_map, Pattern.node.injEq]
    exact and_iff_right rfl
  rw [unifies_cons, hargs]
  exact List.forall_mem_append.symm

/-- A variable of a pattern is assigned something smaller, the variable itself apart. -/
theorem size_lt_of_mem_vars {x : String} {t : Pattern} (hx : x ∈ t.vars) (ht : t ≠ .var x) :
    (T x).size < (t.bind T).size := by
  have hargs : ∀ args : List Pattern, x ∈ args.flatMap Pattern.vars →
      (∀ a ∈ args, x ∈ a.vars → (T x).size ≤ (a.bind T).size) →
      (T x).size ≤ Pattern.sizeList (args.map (Pattern.bind T)) := by
    intro args
    induction args with
    | nil => intro h; simp at h
    | cons a args ih =>
      intro h hle
      rw [List.map_cons, Pattern.sizeList]
      rw [List.flatMap_cons, List.mem_append] at h
      rcases h with h | h
      · have := hle a List.mem_cons_self h
        omega
      · have := ih h fun b hb => hle b (List.mem_cons_of_mem _ hb)
        omega
  induction t using Pattern.induct with
  | var y =>
    rw [Pattern.vars, List.mem_singleton] at hx
    exact absurd (by rw [hx]) ht
  | node k args ih =>
    rw [Pattern.vars, Pattern.varsList_eq_flatMap] at hx
    have hle := hargs args hx fun a ha hxa => by
      by_cases hax : a = .var x
      · rw [hax]; exact Nat.le_refl _
      · exact (ih a ha hxa hax).le
    rw [Pattern.bind, Pattern.bindList_eq_map, Pattern.size]
    omega
  | _ => simp [Pattern.vars] at hx

/-- A variable and a pattern around it never become equal. -/
theorem bind_ne_of_mem_vars {x : String} {t : Pattern} (hx : x ∈ t.vars) (ht : t ≠ .var x) :
    T x ≠ t.bind T := by
  intro h
  have hlt := size_lt_of_mem_vars (T := T) hx ht
  rw [h] at hlt
  omega

/-- **Equations that some assignment unifies are solved.** -/
theorem exists_solve (h : Unifies T eqs) : ∃ new, solve eqs = some new := by
  fun_induction solve eqs with
  | case1 => exact ⟨[], rfl⟩
  | case2 a rest ih => exact ih (unifies_cons.1 h).2
  | case3 rest x t hx hne =>
    exact absurd (unifies_cons.1 h).1 (bind_ne_of_mem_vars hx (Ne.symm hne))
  | case4 rest x t hx hne ih =>
    have hxt : T x = t.bind T := (unifies_cons.1 h).1
    obtain ⟨more, hmore⟩ := ih ((unifies_eliminate hxt).2 (unifies_cons.1 h).2)
    exact ⟨_, by rw [hmore]; rfl⟩
  | case5 rest t x hvar hx hne =>
    exact absurd (unifies_cons.1 h).1.symm (bind_ne_of_mem_vars hx hne)
  | case6 rest t x hvar hx hne ih =>
    have hxt : T x = t.bind T := (unifies_cons.1 h).1.symm
    obtain ⟨more, hmore⟩ := ih ((unifies_eliminate hxt).2 (unifies_cons.1 h).2)
    exact ⟨_, by rw [hmore]; rfl⟩
  | case7 rest k as k' bs hk hne ih =>
    obtain ⟨rfl, hlen⟩ := hk
    exact ih ((unifies_split hlen).1 h)
  | case8 rest k as k' bs hk hne =>
    -- equal patterns have equal heads with equally many arguments
    have heq := (unifies_cons.1 h).1
    rw [Pattern.bind, Pattern.bind, Pattern.bindList_eq_map, Pattern.bindList_eq_map,
      Pattern.node.injEq] at heq
    have hlen := congrArg List.length heq.2
    rw [List.length_map, List.length_map] at hlen
    exact absurd ⟨heq.1, hlen⟩ hk
  | case9 a b rest hne ha hb hnode =>
    -- what is left are two different leaves, or a leaf and a head
    have heq := (unifies_cons.1 h).1
    cases a with
    | var x => exact (ha x rfl).elim
    | node k as =>
      cases b with
      | var y => exact (hb y rfl).elim
      | node k' bs => exact (hnode k as k' bs rfl rfl).elim
      | _ => cases heq
    | _ =>
      cases b with
      | var y => exact (hb y rfl).elim
      | _ => cases heq <;> exact absurd rfl hne

/-! ## The variables of equations -/

/-- The first equation has the variable that is bound and those of its pattern. -/
theorem vars_bound_subset {e : Equation} {x : String} {t : Pattern}
    (he : e = (.var x, t) ∨ e = (t, .var x)) (eqs : List Equation) :
    x :: t.vars ⊆ vars (e :: eqs) := by
  intro y hy
  rcases he with rfl | rfl
  · simp only [vars, List.flatMap_cons, Pattern.vars, List.mem_append, List.mem_cons] at hy ⊢
    exact Or.inl (hy.imp_left Or.inl)
  · simp only [vars, List.flatMap_cons, Pattern.vars, List.mem_append, List.mem_cons] at hy ⊢
    exact Or.inl (hy.symm.imp_right Or.inl)

/-- Eliminating a variable brings in no others. -/
theorem vars_eliminate_subset {e : Equation} {x : String} {t : Pattern}
    (he : e = (.var x, t) ∨ e = (t, .var x)) (hx : x ∉ t.vars) (eqs : List Equation) :
    vars (eliminate x t eqs) ⊆ vars (e :: eqs) := by
  intro y hy
  obtain ⟨-, hmem⟩ := mem_vars_eliminate hx hy
  rcases hmem with hmem | hmem
  · exact vars_bound_subset he eqs (List.mem_cons_of_mem _ hmem)
  · exact vars_tail_subset e eqs hmem

/-! ## The bindings found -/

namespace Solved

/-- Only variables of the equations are bound. -/
theorem mem_vars (h : Solved eqs new) {b : String × Pattern} (hb : b ∈ new) :
    b.1 ∈ vars eqs := by
  induction h with
  | nil => cases hb
  | drop h ih => exact vars_tail_subset _ _ (ih hb)
  | bind he hx h ih =>
    rcases List.mem_cons.1 hb with rfl | hb
    · exact vars_bound_subset he _ List.mem_cons_self
    · exact vars_eliminate_subset he hx _ (ih hb)
  | split hlen h ih => exact vars_zip_subset _ _ _ _ _ (ih hb)

/-- **What unifies the equations respects the bindings found.** -/
theorem respects (h : Solved eqs new) (hT : Unifies T eqs) : ∀ b ∈ new, T b.1 = b.2.bind T := by
  induction h with
  | nil => intro b hb; cases hb
  | drop h ih => exact ih (unifies_cons.1 hT).2
  | @bind e x t eqs new he hx h ih =>
    obtain ⟨heq, hrest⟩ := unifies_cons.1 hT
    have hxt : T x = t.bind T := by
      rcases he with rfl | rfl
      · exact heq
      · exact heq.symm
    exact List.forall_mem_cons.2 ⟨hxt, ih ((unifies_eliminate hxt).2 hrest)⟩
  | split hlen h ih => exact ih ((unifies_split hlen).1 hT)

end Solved

/-- The variables of the equations have no bindings yet. -/
def Free (s : Bindings) (eqs : List Equation) : Prop :=
  ∀ x ∈ vars eqs, s.lookup x = none

theorem Free.tail {e : Equation} (h : Free s (e :: eqs)) : Free s eqs :=
  fun x hx => h x (vars_tail_subset _ _ hx)

theorem Free.bound {e : Equation} {x : String} {t : Pattern}
    (he : e = (.var x, t) ∨ e = (t, .var x)) (h : Free s (e :: eqs)) :
    s.lookup x = none ∧ ∀ y ∈ t.vars, s.lookup y = none :=
  List.forall_mem_cons.1 fun y hy => h y (vars_bound_subset he _ hy)

/-- Once a variable is bound and eliminated, the other variables are still free. -/
theorem Free.eliminate {e : Equation} {x : String} {t : Pattern}
    (he : e = (.var x, t) ∨ e = (t, .var x)) (hx : x ∉ t.vars) (h : Free s (e :: eqs)) :
    Free (s ++ [(x, t)]) (eliminate x t eqs) := by
  intro y hy
  obtain ⟨hne, hmem⟩ := mem_vars_eliminate hx hy
  rw [lookup_concat, if_neg hne, Option.or_none]
  rcases hmem with hmem | hmem
  · exact (h.bound he).2 y hmem
  · exact h.tail y hmem

theorem Free.split {k : Head} {as bs : List Pattern}
    (h : Free s ((.node k as, .node k bs) :: eqs)) : Free s (as.zip bs ++ eqs) :=
  fun x hx => h x (vars_zip_subset _ _ _ _ _ hx)

namespace Solved

/-- **The bindings found keep the bindings before them acyclic.** -/
theorem acyclic (h : Solved eqs new) (hs : s.Acyclic) (hfree : Free s eqs) :
    (s ++ new).Acyclic := by
  induction h generalizing s with
  | nil => rwa [List.append_nil]
  | drop h ih => exact ih hs hfree.tail
  | @bind e x t eqs new he hx h ih =>
    have hx' : (s ++ [(x, t)]).Acyclic := hs.concat (hfree.bound he).2 hx
    have hrest := ih hx' (hfree.eliminate he hx)
    rwa [List.append_assoc] at hrest
  | split hlen h ih => exact ih hs hfree.split

/-- **What respects the bindings found unifies the equations.** -/
theorem unifies (h : Solved eqs new) (hfree : Free s eqs) (hT : Respects T (s ++ new)) :
    Unifies T eqs := by
  induction h generalizing s with
  | nil => intro e he; cases he
  | drop h ih => exact unifies_cons.2 ⟨rfl, ih hfree.tail hT⟩
  | @bind e x t eqs new he hx h ih =>
    -- the binding of `x` is the first one for `x`, so it is the one that counts
    have hxt : T x = t.bind T := by
      refine hT x t ?_
      rw [List.lookup_append, (hfree.bound he).1]
      simp
    have hrest : Unifies T (eliminate x t eqs) := by
      refine ih (hfree.eliminate he hx) ?_
      rwa [List.append_assoc]
    refine unifies_cons.2 ⟨?_, (unifies_eliminate hxt).1 hrest⟩
    rcases he with rfl | rfl
    · exact hxt
    · exact hxt.symm
  | split hlen h ih => exact (unifies_split hlen).2 (ih hfree.split hT)

end Solved

/-! ## Unification of lists and of pairs -/

/-- The bindings `r` go on from `s`: they are acyclic, keep what `s` binds as it is, and bind
no other variables than those of a list. -/
structure Bindings.Extends (r s : Bindings) (xs : List String) : Prop where
  acyclic : r.Acyclic
  kept : ∀ x q, s.lookup x = some q → r.lookup x = some q
  added : ∀ x, r.lookup x ≠ none → s.lookup x = none → x ∈ xs

theorem unify_eq_unifyAll (a b : Pattern) (s : Bindings) : unify a b s = unifyAll [a] [b] s := by
  simp [unify, unifyAll]

/-- The variables of the equations that unification solves have no bindings. -/
theorem Bindings.Acyclic.free (hs : s.Acyclic) (as bs : List Pattern) :
    Free s ((as.map s.apply).zip (bs.map s.apply)) := by
  intro x hx
  rcases List.mem_append.1 (mem_vars_zip hx) with hx | hx
  · obtain ⟨p, hp, hx⟩ := List.mem_flatMap.1 hx
    obtain ⟨a, -, rfl⟩ := List.mem_map.1 hp
    exact hs.lookup_of_mem_apply hx
  · obtain ⟨p, hp, hx⟩ := List.mem_flatMap.1 hx
    obtain ⟨b, -, rfl⟩ := List.mem_map.1 hp
    exact hs.lookup_of_mem_apply hx

/-- What unification of two lists gives are solved equations. -/
theorem solved_of_unifyAll {as bs : List Pattern} {r : Bindings} (h : unifyAll as bs s = some r) :
    as.length = bs.length ∧
      ∃ new, r = s ++ new ∧ Solved ((as.map s.apply).zip (bs.map s.apply)) new := by
  unfold unifyAll at h
  by_cases hlen : as.length = bs.length
  · rw [if_pos hlen] at h
    obtain ⟨new, hnew, rfl⟩ := Option.map_eq_some_iff.1 h
    exact ⟨hlen, new, rfl, solved_of_solve hnew⟩
  · rw [if_neg hlen] at h
    cases h

/-- Lists that an assignment makes equal are unified, and it respects the bindings found. -/
theorem exists_unifyAll {as bs : List Pattern} (hT : Respects T s)
    (h : as.map (Pattern.bind T) = bs.map (Pattern.bind T)) :
    ∃ r, unifyAll as bs s = some r ∧ Respects T r := by
  have hlen : as.length = bs.length := by simpa using congrArg List.length h
  have happly : ∀ ps : List Pattern,
      (ps.map s.apply).map (Pattern.bind T) = ps.map (Pattern.bind T) := by
    intro ps
    rw [List.map_map]
    exact List.map_congr_left fun p _ => hT.bind_apply p
  have huni : Unifies T ((as.map s.apply).zip (bs.map s.apply)) := by
    rw [unifies_zip (by simpa using hlen), happly, happly, h]
  obtain ⟨new, hnew⟩ := exists_solve huni
  refine ⟨s ++ new, by rw [unifyAll, if_pos hlen, hnew]; rfl, ?_⟩
  intro x q hq
  rw [List.lookup_append, Option.or_eq_some_iff] at hq
  rcases hq with hq | ⟨-, hq⟩
  · exact hT x q hq
  · obtain ⟨l₁, l₂, rfl, -⟩ := List.lookup_eq_some_iff.1 hq
    exact (solved_of_solve hnew).respects huni (x, q) (by simp)

/-- The bindings that unify two lists make them equal and go on from those at hand. -/
theorem map_apply_eq_of_unifyAll {as bs : List Pattern} {r : Bindings} (hs : s.Acyclic)
    (h : unifyAll as bs s = some r) :
    as.map r.apply = bs.map r.apply ∧
      r.Extends s (as.flatMap (fun a => (s.apply a).vars) ++ bs.flatMap fun b => (s.apply b).vars) := by
  obtain ⟨hlen, new, rfl, hsolved⟩ := solved_of_unifyAll h
  have hfree := hs.free as bs
  have hr : (s ++ new).Acyclic := hsolved.acyclic hs hfree
  have hkept : ∀ x q, s.lookup x = some q → (s ++ new).lookup x = some q := by
    intro x q hq
    rw [List.lookup_append, hq]; rfl
  refine ⟨?_, hr, hkept, ?_⟩
  · -- the ends of the chains respect all bindings, so they unify the equations
    have hend := hr.respects_ending
    have hend' : Respects (s ++ new).ending s := fun x q hq => hend x q (hkept x q hq)
    have huni := hsolved.unifies hfree hend
    rw [unifies_zip (by simpa using hlen), List.map_map, List.map_map] at huni
    have happly : ∀ p, (Pattern.bind (s ++ new).ending ∘ s.apply) p = (s ++ new).apply p := by
      intro p
      rw [Function.comp_apply, hend'.bind_apply, ← apply_eq_bind]
    rwa [List.map_congr_left fun p _ => happly p, List.map_congr_left fun p _ => happly p] at huni
  · intro x hx hsx
    rw [List.lookup_append, hsx, Option.none_or] at hx
    obtain ⟨q, hq⟩ := Option.ne_none_iff_exists'.1 hx
    obtain ⟨l₁, l₂, rfl, -⟩ := List.lookup_eq_some_iff.1 hq
    have hmem := hsolved.mem_vars (b := (x, q)) (by simp)
    simpa [List.flatMap_map] using mem_vars_zip hmem

/-- **Unification is complete and its bindings are most general.** Patterns that some
assignment makes equal are unified, if the assignment respects the bindings at hand; it then
respects the bindings found. Without bindings found there is no such assignment. -/
theorem unify_mostGeneral (s : Bindings) (hs : s.Acyclic) :
    (∀ a b T, Respects T s → a.bind T = b.bind T → ∃ r, unify a b s = some r ∧ Respects T r) ∧
    (∀ a b, unify a b s = none ↔ ¬ ∃ T, Respects T s ∧ a.bind T = b.bind T) ∧
    (∀ as bs T, as.length = bs.length → Respects T s →
      as.map (Pattern.bind T) = bs.map (Pattern.bind T) →
        ∃ r, unifyAll as bs s = some r ∧ Respects T r) ∧
    (∀ as bs, as.length = bs.length → (unifyAll as bs s = none ↔
      ¬ ∃ T, Respects T s ∧ as.map (Pattern.bind T) = bs.map (Pattern.bind T))) := by
  have hnone : ∀ as bs, unifyAll as bs s = none ↔
      ¬ ∃ T, Respects T s ∧ as.map (Pattern.bind T) = bs.map (Pattern.bind T) := by
    intro as bs
    constructor
    · rintro h ⟨T, hT, heq⟩
      obtain ⟨r, hr, -⟩ := exists_unifyAll hT heq
      rw [h] at hr; cases hr
    · intro h
      by_contra hne
      obtain ⟨r, hr⟩ := Option.ne_none_iff_exists'.1 hne
      obtain ⟨heq, hext⟩ := map_apply_eq_of_unifyAll hs hr
      refine h ⟨r.ending, fun x q hq => hext.acyclic.respects_ending x q (hext.kept x q hq), ?_⟩
      rwa [List.map_congr_left fun p _ => apply_eq_bind r p,
        List.map_congr_left fun p _ => apply_eq_bind r p] at heq
  refine ⟨fun a b T hT h => ?_, fun a b => ?_, fun as bs T _ hT h => exists_unifyAll hT h,
    fun as bs _ => hnone as bs⟩
  · rw [unify_eq_unifyAll]
    exact exists_unifyAll hT (by rw [List.map_singleton, List.map_singleton, h])
  · rw [unify_eq_unifyAll, hnone]
    simp

/-- With `x` bound to `f(y)`, the patterns `x` and `f(c)` are unified, and what makes them equal
respects the binding found. The patterns `y` and `g(x)` are not: `y` stands in what `x` is
bound to. -/
theorem unify_mostGeneral_through_binding :
    let c : Pattern := .atom "c"
    let s : Bindings := [("x", .node (.fn "f") [.var "y"])]
    let T : String → Pattern := fun z => if z = "x" then .node (.fn "f") [c] else c
    s.Acyclic ∧ Respects T s ∧
      (∃ r, unify (.var "x") (.node (.fn "f") [c]) s = some r ∧ Respects T r) ∧
      unify (.var "y") (.node (.fn "g") [.var "x"]) s = none ∧
      ¬ ∃ T, Respects T s ∧ (Pattern.var "y").bind T = (Pattern.node (.fn "g") [.var "x"]).bind T := by
  intro c s T
  have hs : s.Acyclic := acyclic_nil.concat (fun _ _ => rfl) (by decide)
  have hT : Respects T s := by
    intro z q hq
    obtain ⟨l₁, l₂, hl, -⟩ := List.lookup_eq_some_iff.1 hq
    have hz : (z, q) ∈ s := by rw [hl]; simp
    cases List.mem_singleton.1 hz
    rfl
  -- applied to the right side, the bindings show that `y` occurs in it
  have happly : s.apply (.node (.fn "g") [.var "x"]) =
      .node (.fn "g") [.node (.fn "f") [.var "y"]] := rfl
  have hy : s.apply (.var "y") = .var "y" := rfl
  have hnone : unify (.var "y") (.node (.fn "g") [.var "x"]) s = none := by
    rw [unify, happly, hy]
    cbv
  obtain ⟨hsome, hiff, -, -⟩ := unify_mostGeneral s hs
  exact ⟨hs, hT, hsome _ _ T hT rfl, hnone, (hiff _ _).1 hnone⟩

/-- **Unification is sound and keeps bindings well formed.** The bindings found make the two
sides equal, are acyclic, keep the bindings at hand, and bind besides only variables that are
left in the sides when the bindings at hand are applied. -/
theorem unify_sound (s : Bindings) (hs : s.Acyclic) :
    (∀ a b r, unify a b s = some r →
      r.apply a = r.apply b ∧ r.Extends s ((s.apply a).vars ++ (s.apply b).vars)) ∧
    (∀ as bs r, unifyAll as bs s = some r → as.map r.apply = bs.map r.apply ∧
      r.Extends s (as.flatMap (fun a => (s.apply a).vars) ++ bs.flatMap fun b => (s.apply b).vars)) := by
  refine ⟨fun a b r h => ?_, fun as bs r h => map_apply_eq_of_unifyAll hs h⟩
  rw [unify_eq_unifyAll] at h
  simpa using map_apply_eq_of_unifyAll hs h

/-- With `x` bound to `f(y)`, unifying `x` with `f(c)` binds `y` to `c`. -/
theorem unify_sound_through_binding :
    let a : Pattern := .var "x"
    let b : Pattern := .node (.fn "f") [.atom "c"]
    let s : Bindings := [("x", .node (.fn "f") [.var "y"])]
    let r : Bindings := s ++ [("y", .atom "c")]
    s.Acyclic ∧ unify a b s = some r ∧ r.apply a = r.apply b ∧
      r.Extends s ((s.apply a).vars ++ (s.apply b).vars) := by
  intro a b s r
  have hs : s.Acyclic := acyclic_nil.concat (fun _ _ => rfl) (by decide)
  have ha : s.apply a = .node (.fn "f") [.var "y"] := rfl
  have hb : s.apply b = b := rfl
  have hr : unify a b s = some r := by
    rw [unify, ha, hb]
    cbv
  exact ⟨hs, hr, (unify_sound s hs).1 a b r hr⟩

end Refutation
