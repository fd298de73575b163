import Refutation.Proofs.Reading.Ambiguity

/-!
# How far the body of a quantifier goes

Brackets are balanced in every derivation, so no body goes on over a comma or a closing
bracket that belongs to a bracket opened before it. `reach` counts the lexemes up to there.
It is told by the lexemes alone, and it bounds every body of every derivation of them
(`Derives.bodies_le_reaches`). The bound is met by all bodies exactly in the greedy
derivations (`Derives.reaches_eq_bodies_iff`), and so these are the derivations in which
bodies go farthest.

* `Derives.farthest_of_greedy`: **in a greedy derivation every body goes farthest.**
* `Derives.greedy_of_farthest`: where there is a greedy derivation, those in which every
  body goes farthest are greedy.
-/

namespace Refutation.Reading

/-- The number of lexemes before the first comma or closing bracket that belongs to none of
the brackets opened among them and the `d` that are open already. -/
def reach : Nat → List Lexeme → Nat
  | _, [] => 0
  | d, .lpar :: ls => reach (d + 1) ls + 1
  | 0, .rpar :: _ => 0
  | d + 1, .rpar :: ls => reach d ls + 1
  | 0, .comma :: _ => 0
  | d + 1, .comma :: ls => reach (d + 1) ls + 1
  | d, _ :: ls => reach d ls + 1

/-- How far the body behind each dot may go. -/
def scopes : List Lexeme → List Nat
  | [] => []
  | .dot :: ls => reach 0 ls :: scopes ls
  | _ :: ls => scopes ls

/-- How far the body of each quantifier may go, if the lexemes `x` follow. -/
def Derivation.reaches : Derivation → List Lexeme → List Nat
  | .symbol _, _ => []
  | .group t, x => t.reaches (.rpar :: x)
  | .apply f a, x => f.reaches (a.lexemes ++ x) ++ a.reaches x
  | .applyMany f a m, x =>
    f.reaches (.lpar :: (a.lexemes ++ (m.lexemes ++ .rpar :: x))) ++
      (a.reaches (m.lexemes ++ .rpar :: x) ++ m.reaches (.rpar :: x))
  | .argument a, x => a.reaches x
  | .arguments a m, x => a.reaches (m.lexemes ++ x) ++ m.reaches x
  | .not b, x => b.reaches x
  | .binary op l r, x => l.reaches (.binary op :: (r.lexemes ++ x)) ++ r.reaches x
  | .quant _ _ _ b, x => reach 0 (b.lexemes ++ x) :: b.reaches x

variable {t t₀ : Derivation} {n : Category}

/-- The bounds are told by the lexemes. -/
theorem scopes_append (t : Derivation) (x : List Lexeme) :
    scopes (t.lexemes ++ x) = t.reaches x ++ scopes x := by
  induction t generalizing x with
  | symbol s => rfl
  | group t ih => simp [Derivation.lexemes, Derivation.reaches, scopes, ih]
  | apply f a ihf iha => simp [Derivation.lexemes, Derivation.reaches, ihf, iha]
  | applyMany f a m ihf iha ihm =>
    simp [Derivation.lexemes, Derivation.reaches, scopes, ihf, iha, ihm]
  | argument a ih => simp [Derivation.lexemes, Derivation.reaches, scopes, ih]
  | arguments a m iha ihm => simp [Derivation.lexemes, Derivation.reaches, scopes, iha, ihm]
  | not b ih => simp [Derivation.lexemes, Derivation.reaches, scopes, ih]
  | binary op l r ihl ihr => simp [Derivation.lexemes, Derivation.reaches, scopes, ihl, ihr]
  | quant q y a b ih =>
    cases a <;> simp [Derivation.lexemes, annotationLexemes, Derivation.reaches, scopes, ih]

/-! ## Balanced brackets -/

/-- Nothing in a derivation ends what is counted. -/
def Passed (t : Derivation) : Prop :=
  ∀ d x, reach d (t.lexemes ++ x) = t.lexemes.length + reach d x

/-- The commas of further arguments stand in a bracket. -/
def Balanced : Category → Derivation → Prop
  | .arguments, t => ∀ d x, reach (d + 1) (t.lexemes ++ x) = t.lexemes.length + reach (d + 1) x
  | _, t => Passed t

theorem reach_annotationLexemes (d : Nat) (a : Option String) (x : List Lexeme) :
    reach d (annotationLexemes a ++ x) = (annotationLexemes a).length + reach d x := by
  cases a with
  | none => simp [annotationLexemes]
  | some s => simp [annotationLexemes, reach]; omega

theorem passed_binary (op : Connective) {l r : Derivation} (hl : Passed l) (hr : Passed r) :
    Passed (.binary op l r) := by
  intro d x
  simp only [Derivation.lexemes, List.append_assoc, List.cons_append, hl d, reach, hr d,
    List.length_append, List.length_cons]
  omega

theorem Derives.balanced (h : Derives n t) : Balanced n t := by
  induction h with
  | implication _ ih | disjunction _ ih | conjunction _ ih | quantified _ ih | unary _ ih
  | equality _ ih | application _ ih => exact ih
  | symbol hs => exact fun d x => by simp [Derivation.lexemes, reach]; omega
  | @not b _ ih =>
    intro d x
    have hb := ih d x
    simp only [Derivation.lexemes, List.cons_append, reach, hb, List.length_cons]
    omega
  | implies _ _ ihl ihr | or _ _ ihl ihr | and _ _ ihl ihr | equals _ _ ihl ihr =>
    exact passed_binary _ ihl ihr
  | @quant q y a b _ _ _ ih =>
    intro d x
    have hb := ih d x
    simp only [Derivation.lexemes, List.cons_append, List.append_assoc, reach,
      reach_annotationLexemes, hb, List.length_cons, List.length_append]
    omega
  | @group t _ ih =>
    intro d x
    have ht := ih (d + 1) (.rpar :: x)
    simp only [Derivation.lexemes, List.cons_append, List.append_assoc, List.nil_append, reach,
      ht, List.length_cons, List.length_append, List.length_nil]
    omega
  | @apply f a _ _ ihf iha =>
    intro d x
    have hf := ihf d (a.lexemes ++ x)
    have ha := iha d x
    simp only [Derivation.lexemes, List.append_assoc, hf, ha, List.length_append]
    omega
  | @applyMany f a m _ _ _ ihf iha ihm =>
    intro d x
    have hf := ihf d (.lpar :: (a.lexemes ++ (m.lexemes ++ .rpar :: x)))
    have ha := iha (d + 1) (m.lexemes ++ .rpar :: x)
    have hm := ihm d (.rpar :: x)
    simp only [Derivation.lexemes, List.append_assoc, List.cons_append, List.nil_append, hf, reach,
      ha, hm, List.length_append, List.length_cons, List.length_nil]
    omega
  | @argument a _ ih =>
    intro d x
    have ha := ih (d + 1) x
    simp only [Derivation.lexemes, List.cons_append, reach, ha, List.length_cons]
    omega
  | @arguments a m _ _ iha ihm =>
    intro d x
    have ha := iha (d + 1) (m.lexemes ++ x)
    have hm := ihm d x
    simp only [Derivation.lexemes, List.cons_append, List.append_assoc, reach, ha, hm,
      List.length_cons, List.length_append]
    omega

theorem Derives.reach_body (h : Derives .implication t) (x : List Lexeme) :
    reach 0 (t.lexemes ++ x) = t.lexemes.length + reach 0 x :=
  h.balanced 0 x

/-! ## Bodies stay within the bounds -/

/-- **No body goes beyond the bound.** -/
theorem Derives.bodies_le_reaches (h : Derives n t) (x : List Lexeme) :
    List.Forall₂ (· ≤ ·) t.bodies (t.reaches x) := by
  induction h generalizing x with
  | implication _ ih | disjunction _ ih | conjunction _ ih | quantified _ ih | unary _ ih
  | equality _ ih | application _ ih => exact ih x
  | symbol hs => exact .nil
  | not _ ih => exact ih x
  | implies _ _ ihl ihr | or _ _ ihl ihr | and _ _ ihl ihr | equals _ _ ihl ihr =>
    exact List.rel_append (ihl _) (ihr x)
  | quant _ _ hb ih =>
    refine .cons ?_ (ih x)
    rw [hb.reach_body]
    omega
  | group _ ih => exact ih _
  | apply _ _ ihf iha => exact List.rel_append (ihf _) (iha x)
  | applyMany _ _ _ ihf iha ihm =>
    exact List.rel_append (ihf _) (List.rel_append (iha _) (ihm _))
  | argument _ ih => exact ih x
  | arguments _ _ iha ihm => exact List.rel_append (iha _) (ihm x)

theorem Derives.length_reaches (h : Derives n t) (x : List Lexeme) :
    (t.reaches x).length = t.bodies.length :=
  (h.bodies_le_reaches x).length_eq.symm

/-- All bodies go as far as the bound exactly if the derivation is greedy and what follows
cannot be taken into a body at its end. -/
def Attained (t : Derivation) : Prop :=
  ∀ x, t.reaches x = t.bodies ↔ t.greedy = true ∧ (t.endsInBody = true → reach 0 x = 0)

/-- What follows further arguments is a closing bracket. -/
def Attains : Category → Derivation → Prop
  | .arguments, t => ∀ x, reach 0 x = 0 → (t.reaches x = t.bodies ↔ t.greedy = true)
  | _, t => Attained t

/-- Bodies that stand side by side are compared apart. -/
theorem Derives.append_eq_append_iff (h : Derives n t) {x : List Lexeme} {rs bs : List Nat} :
    t.reaches x ++ rs = t.bodies ++ bs ↔ t.reaches x = t.bodies ∧ rs = bs := by
  refine ⟨fun he => List.append_inj he (h.length_reaches x), fun he => ?_⟩
  rw [he.1, he.2]

theorem attained_binary (op : Connective) {l r : Derivation} (hl : Derives n l)
    (ihl : Attained l) (ihr : Attained r) : Attained (.binary op l r) := by
  intro x
  -- a body at the end of the left side would stop short of the connective
  have hshort : reach 0 (.binary op :: (r.lexemes ++ x)) ≠ 0 := by simp [reach]
  rw [Derivation.reaches, Derivation.bodies, hl.append_eq_append_iff, ihl _, ihr x, Derivation.greedy,
    Derivation.endsInBody, Bool.and_eq_true, Bool.and_eq_true, Bool.not_eq_true',
    ← Bool.not_eq_true]
  exact ⟨fun h => ⟨⟨fun he => hshort (h.1.2 he), h.1.1, h.2.1⟩, h.2.2⟩,
    fun h => ⟨⟨h.1.2.1, fun he => absurd he h.1.1⟩, h.1.2.2, h.2⟩⟩

/-- An application has no body at its end. -/
theorem Derives.attains_application (h : Derives .application t) (ih : Attained t)
    (x : List Lexeme) : t.reaches x = t.bodies ↔ t.greedy = true := by
  rw [ih x, h.endsInBody_application]
  simp

theorem Derives.attains (h : Derives n t) : Attains n t := by
  induction h with
  | implication _ ih | disjunction _ ih | conjunction _ ih | quantified _ ih | unary _ ih
  | equality _ ih | application _ ih => exact ih
  | symbol hs =>
    intro x
    simp [Derivation.reaches, Derivation.bodies, Derivation.greedy, Derivation.endsInBody]
  | not _ ih => exact ih
  | implies hl _ ihl ihr | or hl _ ihl ihr | and hl _ ihl ihr | equals hl _ ihl ihr =>
    exact attained_binary _ hl ihl ihr
  | @quant q y a b _ _ hb ih =>
    intro x
    -- the body goes to the bound iff nothing behind it could be taken into it
    have hbody : reach 0 (b.lexemes ++ x) = b.lexemes.length ↔ reach 0 x = 0 := by
      rw [hb.reach_body]
      omega
    rw [Derivation.reaches, Derivation.bodies, List.cons.injEq, hbody, ih x, Derivation.greedy,
      Derivation.endsInBody]
    exact ⟨fun h => ⟨h.2.1, fun _ => h.1⟩, fun h => ⟨h.2 rfl, h.1, fun _ => h.2 rfl⟩⟩
  | @group t _ ih =>
    intro x
    have ht := ih (.rpar :: x)
    simpa [Derivation.reaches, Derivation.bodies, Derivation.greedy, Derivation.endsInBody,
      reach] using ht
  | @apply f a hf ha ihf iha =>
    intro x
    have hfn := hf.attains_application ihf (a.lexemes ++ x)
    have harg := (Derives.application ha).attains_application iha x
    rw [Derivation.reaches, Derivation.bodies, hf.append_eq_append_iff, hfn, harg,
      Derivation.greedy, Bool.and_eq_true]
    simp [Derivation.endsInBody]
  | @applyMany f a m hf ha hm ihf iha ihm =>
    intro x
    have hfn := hf.attains_application ihf (.lpar :: (a.lexemes ++ (m.lexemes ++ .rpar :: x)))
    have hfirst := iha (m.lexemes ++ .rpar :: x)
    -- the first argument ends at a comma, the last one at the bracket
    have hcomma : reach 0 (m.lexemes ++ .rpar :: x) = 0 := by
      obtain ⟨ls, hls⟩ := hm.exists_comma
      simp [hls, reach]
    have hmore := ihm (.rpar :: x) rfl
    rw [Derivation.reaches, Derivation.bodies, hf.append_eq_append_iff, hfn,
      ha.append_eq_append_iff, hfirst, hmore, Derivation.greedy, Bool.and_eq_true,
      Bool.and_eq_true]
    simp [Derivation.endsInBody, hcomma]
  | @argument a _ ih =>
    intro x hx
    have ha := ih x
    simpa [Derivation.reaches, Derivation.bodies, Derivation.greedy, hx] using ha
  | @arguments a m ha hm iha ihm =>
    intro x hx
    have hfirst := iha (m.lexemes ++ x)
    have hcomma : reach 0 (m.lexemes ++ x) = 0 := by
      obtain ⟨ls, hls⟩ := hm.exists_comma
      simp [hls, reach]
    rw [Derivation.reaches, Derivation.bodies, ha.append_eq_append_iff, hfirst, ihm x hx,
      Derivation.greedy, Bool.and_eq_true]
    simp [hcomma]

/-- **All bodies go as far as the bound exactly in greedy derivations.** -/
theorem Derives.reaches_eq_bodies_iff (h : Derives .start t) :
    t.reaches [] = t.bodies ↔ t.greedy = true := by
  have hattains := h.attains []
  simpa [reach] using hattains

theorem reaches_nil (t : Derivation) : t.reaches [] = scopes t.lexemes := by
  have hscopes := scopes_append t []
  simpa [scopes] using hscopes.symm

/-- **In a greedy derivation every body goes farthest.** -/
theorem Derives.farthest_of_greedy (h : Derives .start t) (hg : t.greedy = true) : t.Farthest := by
  intro t' h' he
  rw [← h.reaches_eq_bodies_iff.2 hg, reaches_nil, ← he, ← reaches_nil]
  exact h'.bodies_le_reaches []

/-- Where there is a greedy derivation, those in which every body goes farthest are
greedy. -/
theorem Derives.greedy_of_farthest (h : Derives .start t) (h₀ : Derives .start t₀)
    (hg : t₀.greedy = true) (he : t₀.lexemes = t.lexemes) (hf : t.Farthest) :
    t.greedy = true := by
  have hle := hf t₀ h₀ he
  rw [← h₀.reaches_eq_bodies_iff.2 hg, reaches_nil, he, ← reaches_nil] at hle
  have hge := h.bodies_le_reaches []
  -- the bodies lie below the bounds and above them
  have heq : t.reaches [] = t.bodies := by
    refine List.ext_get hle.length_eq fun i hi hi' => ?_
    exact Nat.le_antisymm (hle.get hi hi') (hge.get hi' hi)
  exact h.reaches_eq_bodies_iff.1 heq

end Refutation.Reading
