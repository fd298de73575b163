import Refutation.Proofs.Reading.Grammar

/-!
# Where the grammar is ambiguous

Only the end of a quantifier's body is left open by the grammar. A derivation is *greedy* if
no left side of a connective ends in such a body, so that every body goes on over the
connectives behind it.

Two greedy derivations of the same lexemes are equal. The proof compares them from the left,
whatever follows either of them: what follows must not be able to lengthen the derivation
(`Fits`). The levels are treated from the tightest to the loosest. An application grows to
the right although its derivation nests to the left, so it is first spread out as an atom
and a row of arguments (`exists_row`); a bracket behind it may open one argument or several,
which only the comma after the first of them tells.

* `Derives.eq_of_lexemes_eq`: **greedy derivations are told apart by their lexemes.**
-/

namespace Refutation.Reading

namespace Derivation

/-- Whether the body of a quantifier reaches to the end. -/
def endsInBody : Derivation → Bool
  | .not b => b.endsInBody
  | .binary _ _ r => r.endsInBody
  | .quant _ _ _ _ => true
  | _ => false

/-- No left side of a connective ends in the body of a quantifier. -/
def greedy : Derivation → Bool
  | .symbol _ => true
  | .group t => t.greedy
  | .apply f a => f.greedy && a.greedy
  | .applyMany f a m => f.greedy && (a.greedy && m.greedy)
  | .argument a => a.greedy
  | .arguments a m => a.greedy && m.greedy
  | .not b => b.greedy
  | .binary _ l r => !l.endsInBody && (l.greedy && r.greedy)
  | .quant _ _ _ b => b.greedy

end Derivation

/-- A lexeme can lengthen what derives from a level below its grip. -/
def Lexeme.grip : Lexeme → Nat
  | .name _ => 6
  | .lpar => 6
  | .binary op => grade op + 1
  | _ => 0

/-- A greedy derivation from a level, and lexemes behind it that cannot lengthen it. -/
structure Fits (k : Nat) (t : Derivation) (r : List Lexeme) : Prop where
  derives : Derives (level k) t
  greedy : t.greedy = true
  cut : ∀ l ∈ r.head?, l.grip ≤ if t.endsInBody then 0 else k

/-- No other greedy derivation from the level starts with the same lexemes. -/
def Unique (k : Nat) (t : Derivation) : Prop :=
  ∀ t' r r', Fits k t r → Fits k t' r' → t.lexemes ++ r = t'.lexemes ++ r' → t = t' ∧ r = r'

/-- The same for further arguments, up to the closing bracket. -/
def UniqueArguments (m : Derivation) : Prop :=
  ∀ m' r r', Derives .arguments m → Derives .arguments m' → m.greedy = true → m'.greedy = true →
    m.lexemes ++ .rpar :: r = m'.lexemes ++ .rpar :: r' → m = m' ∧ r = r'

variable {t t' l r : Derivation} {k : Nat} {x y : List Lexeme}

theorem Derives.endsInBody_application (h : Derives .application t) : t.endsInBody = false := by
  cases h with
  | application h => cases h <;> rfl
  | apply hf ha => rfl
  | applyMany hf ha hm => rfl

/-- What stands in brackets ends before a comma or a closing bracket. -/
theorem fits_of_grip (h : Derives .implication t) (hg : t.greedy = true)
    (hx : ∀ l ∈ x.head?, l.grip = 0) : Fits 0 t x :=
  ⟨h, hg, fun l hl => by rw [hx l hl]; exact Nat.zero_le _⟩

theorem fits_rpar (h : Derives .implication t) (hg : t.greedy = true) (x : List Lexeme) :
    Fits 0 t (.rpar :: x) :=
  fits_of_grip h hg (by simp [Lexeme.grip])

theorem Derives.exists_comma {m : Derivation} (h : Derives .arguments m) :
    ∃ ls, m.lexemes = .comma :: ls := by
  cases h <;> exact ⟨_, rfl⟩

theorem fits_arguments {m : Derivation} (h : Derives .implication t) (hg : t.greedy = true)
    (hm : Derives .arguments m) (x : List Lexeme) : Fits 0 t (m.lexemes ++ x) := by
  obtain ⟨ls, hls⟩ := hm.exists_comma
  exact fits_of_grip h hg (by simp [hls, Lexeme.grip])

/-- A closing bracket is no comma. -/
theorem Derives.ne_rpar {m : Derivation} (hm : Derives .arguments m)
    (he : m.lexemes ++ x = .rpar :: y) : False := by
  obtain ⟨ls, hls⟩ := hm.exists_comma
  rw [hls] at he
  cases (List.cons.inj he).1

namespace Fits

theorem succ (h : Fits k t x) (ht : Derives (level (k + 1)) t) : Fits (k + 1) t x := by
  refine ⟨ht, h.greedy, fun l hl => Nat.le_trans (h.cut l hl) ?_⟩
  split <;> omega

/-- A connective cannot follow what derives from its own level. -/
theorem ne_binary {op : Connective} (h : Fits (grade op) t (.binary op :: x)) : False := by
  have hcut := h.cut (.binary op) (by simp)
  have hgrip : (Lexeme.binary op).grip = grade op + 1 := rfl
  split at hcut <;> omega

/-- The left side of a connective ends before it. -/
theorem left {op : Connective} (h : Fits k (.binary op l r) y)
    (hl : Derives (level (grade op + 1)) l) (x : List Lexeme) :
    Fits (grade op + 1) l (.binary op :: x) := by
  have hg := h.greedy
  simp only [Derivation.greedy, Bool.and_eq_true, Bool.not_eq_true'] at hg
  refine ⟨hl, hg.2.1, fun m hm => ?_⟩
  obtain rfl : .binary op = m := by simpa using hm
  rw [hg.1]
  exact Nat.le_refl _

/-- The right side of a connective ends where the whole ends. -/
theorem right {op : Connective} (h : Fits (grade op) (.binary op l r) y)
    (hr : Derives (level (rightGrade op)) r) : Fits (rightGrade op) r y := by
  have hg := h.greedy
  simp only [Derivation.greedy, Bool.and_eq_true] at hg
  refine ⟨hr, hg.2.2, fun m hm => Nat.le_trans (h.cut m hm) ?_⟩
  have hgrade := grade_le_rightGrade op
  rw [Derivation.endsInBody]
  split <;> omega

end Fits

/-! ## Connectives -/

/-- Where the tighter level is settled and so are the two sides, a connective is settled. -/
theorem unique_grade (op : Connective) (htight : Unique (grade op + 1) t)
    (hsides : ∀ l r, t = .binary op l r → Unique (grade op + 1) l ∧ Unique (rightGrade op) r) :
    Unique (grade op) t := by
  intro t' x y h h' he
  rcases h.derives.grade_cases op with ht | ⟨l, r, rfl, hl, hr⟩
  · rcases h'.derives.grade_cases op with ht' | ⟨l', r', rfl, hl', hr'⟩
    · exact htight t' x y (h.succ ht) (h'.succ ht') he
    · -- `t` is the left side of `t'`, and then the connective would lengthen `t`
      rw [Derivation.lexemes, List.append_assoc, List.cons_append] at he
      obtain ⟨rfl, rfl⟩ := htight l' x _ (h.succ ht) (h'.left hl' _) he
      exact h.ne_binary.elim
  · obtain ⟨huniqueLeft, huniqueRight⟩ := hsides l r rfl
    rcases h'.derives.grade_cases op with ht' | ⟨l', r', rfl, hl', hr'⟩
    · rw [Derivation.lexemes, List.append_assoc, List.cons_append] at he
      obtain ⟨rfl, rfl⟩ := huniqueLeft t' _ y (h.left hl _) (h'.succ ht') he
      exact h'.ne_binary.elim
    · rw [Derivation.lexemes, Derivation.lexemes, List.append_assoc, List.append_assoc,
        List.cons_append, List.cons_append] at he
      obtain ⟨rfl, hrest⟩ := huniqueLeft l' _ _ (h.left hl _) (h'.left hl' _) he
      obtain ⟨rfl, rfl⟩ := huniqueRight r' x y (h.right hr) (h'.right hr') (List.cons.inj hrest).2
      exact ⟨rfl, rfl⟩

/-! ## Negations and quantifiers -/

/-- An atom, an application and an equation start with a name or a bracket. -/
def StartsPlainly : Category → Derivation → Prop
  | .equality, t | .application, t | .atomic, t => ∃ l ls, t.lexemes = l :: ls ∧ l.grip = 6
  | _, _ => True

theorem Derives.startsPlainly {n : Category} (h : Derives n t) : StartsPlainly n t := by
  -- an application and an equation start as their left parts do
  have happend : ∀ {t : Derivation} {ls : List Lexeme} (ms : List Lexeme),
      (∃ l ks, t.lexemes = l :: ks ∧ l.grip = 6) → t.lexemes ++ ms = ls →
        ∃ l ks, ls = l :: ks ∧ l.grip = 6 := by
    rintro t ls ms ⟨l, ks, hl, hgrip⟩ rfl
    exact ⟨l, ks ++ ms, by rw [hl, List.cons_append], hgrip⟩
  induction h with
  | equality _ ih => exact ih
  | application _ ih => exact ih
  | equals _ _ ih _ => exact happend _ ih rfl
  | apply _ _ ih _ => exact happend _ ih rfl
  | applyMany _ _ _ ih _ _ => exact happend _ ih rfl
  | symbol hs => exact ⟨_, _, rfl, rfl⟩
  | group _ _ => exact ⟨_, _, rfl, rfl⟩
  | _ => trivial

theorem Derives.unary_cases (h : Derives .unary t) :
    Derives .equality t ∨ (∃ b, t = .not b ∧ Derives .unary b) ∨
      ∃ q x a b, t = .quant q x a b ∧ Derives .implication b := by
  cases h with
  | unary h => exact Or.inl h
  | not hb => exact Or.inr (Or.inl ⟨_, rfl, hb⟩)
  | quantified h => cases h with
    | quant hx ha hb => exact Or.inr (Or.inr ⟨_, _, _, _, rfl, hb⟩)

/-- An annotation ends at the dot. -/
theorem annotationLexemes_inj {a b : Option String}
    (h : annotationLexemes a ++ .dot :: x = annotationLexemes b ++ .dot :: y) : a = b ∧ x = y := by
  cases a <;> cases b <;> simp_all [annotationLexemes]

/-- Negations and quantifiers are told by their first lexeme. -/
theorem unique_unary (htight : Unique 4 t) (hnot : ∀ b, t = .not b → Unique 3 b)
    (hquant : ∀ q x a b, t = .quant q x a b → Unique 0 b) : Unique 3 t := by
  intro t' x y h h' he
  have hplain : ∀ {t : Derivation}, Derives .equality t → ∃ l ls, t.lexemes = l :: ls ∧ l.grip = 6 :=
    fun ht => ht.startsPlainly
  rcases Derives.unary_cases h.derives with ht | ⟨b, rfl, hb⟩ | ⟨q, z, a, b, rfl, hb⟩
  · obtain ⟨l, ls, hl, hgrip⟩ := hplain ht
    rcases Derives.unary_cases h'.derives with ht' | ⟨b', rfl, hb'⟩ | ⟨q', z', a', b', rfl, hb'⟩
    · exact htight t' x y (h.succ ht) (h'.succ ht') he
    · rw [hl] at he
      cases (List.cons.inj he).1; cases hgrip
    · rw [hl] at he
      cases (List.cons.inj he).1; cases hgrip
  · rcases Derives.unary_cases h'.derives with ht' | ⟨b', rfl, hb'⟩ | ⟨q', z', a', b', rfl, hb'⟩
    · obtain ⟨l, ls, hl, hgrip⟩ := hplain ht'
      rw [hl] at he
      cases (List.cons.inj he).1; cases hgrip
    · obtain ⟨rfl, rfl⟩ := hnot b rfl b' x y ⟨hb, h.greedy, h.cut⟩ ⟨hb', h'.greedy, h'.cut⟩
        (List.cons.inj he).2
      exact ⟨rfl, rfl⟩
    · cases (List.cons.inj he).1
  · rcases Derives.unary_cases h'.derives with ht' | ⟨b', rfl, hb'⟩ | ⟨q', z', a', b', rfl, hb'⟩
    · obtain ⟨l, ls, hl, hgrip⟩ := hplain ht'
      rw [hl] at he
      cases (List.cons.inj he).1; cases hgrip
    · cases (List.cons.inj he).1
    · simp only [Derivation.lexemes, List.cons_append, List.append_assoc, List.cons.injEq,
        Lexeme.quant.injEq, Lexeme.name.injEq] at he
      obtain ⟨rfl, rfl, he⟩ := he
      obtain ⟨rfl, hbody⟩ := annotationLexemes_inj he
      -- what follows a quantifier cannot lengthen its body
      have hends : ∀ {s : Derivation} {z : List Lexeme}, (∀ l ∈ z.head?, l.grip ≤ 0) →
          ∀ l ∈ z.head?, l.grip ≤ if s.endsInBody then 0 else 0 := by
        intro s z hz l hl
        simpa using hz l hl
      obtain ⟨rfl, rfl⟩ := hquant q z a b rfl b' x y ⟨hb, h.greedy, hends h.cut⟩
        ⟨hb', h'.greedy, hends h'.cut⟩ hbody
      exact ⟨rfl, rfl⟩

/-! ## Brackets -/

/-- Brackets end where they are closed. -/
theorem unique_atomic (hgroup : ∀ s, t = .group s → Unique 0 s) : Unique 6 t := by
  intro t' x y h h' he
  have ht : Derives .atomic t := h.derives
  have ht' : Derives .atomic t' := h'.derives
  cases ht with
  | symbol hs => cases ht' with
    | symbol hs' =>
      simp only [Derivation.lexemes, List.cons_append, List.nil_append, List.cons.injEq,
        Lexeme.name.injEq] at he
      exact ⟨by rw [he.1], he.2⟩
    | group hs' => cases (List.cons.inj he).1
  | @group s hs => cases ht' with
    | symbol hs' => cases (List.cons.inj he).1
    | @group s' hs' =>
      simp only [Derivation.lexemes, List.append_assoc, List.cons_append, List.nil_append,
        List.cons.injEq, true_and] at he
      obtain ⟨rfl, hrest⟩ := hgroup s rfl s' _ _ (fits_rpar hs h.greedy x)
        (fits_rpar hs' h'.greedy y) he
      exact ⟨rfl, (List.cons.inj hrest).2⟩

/-- After an argument comes a comma or the closing bracket. -/
theorem unique_arguments (hlast : ∀ a, t = .argument a → Unique 0 a)
    (hmore : ∀ a m, t = .arguments a m → Unique 0 a ∧ UniqueArguments m) :
    UniqueArguments t := by
  intro t' x y h h' hg hg' he
  cases h with
  | @argument a ha => cases h' with
    | @argument a' ha' =>
      obtain ⟨rfl, hrest⟩ := hlast a rfl a' _ _ (fits_rpar ha hg x) (fits_rpar ha' hg' y)
        (List.cons.inj he).2
      exact ⟨rfl, (List.cons.inj hrest).2⟩
    | @arguments a' m' ha' hm' =>
      simp only [Derivation.lexemes, List.append_assoc, List.cons_append, List.cons.injEq,
        true_and, Derivation.greedy, Bool.and_eq_true] at he hg'
      obtain ⟨-, hrest⟩ := hlast a rfl a' _ _ (fits_rpar ha hg x)
        (fits_arguments ha' hg'.1 hm' _) he
      exact (hm'.ne_rpar hrest.symm).elim
  | @arguments a m ha hm =>
    obtain ⟨huniqueFirst, huniqueMore⟩ := hmore a m rfl
    simp only [Derivation.lexemes, List.append_assoc, List.cons_append, Derivation.greedy,
      Bool.and_eq_true] at he hg
    cases h' with
    | @argument a' ha' =>
      obtain ⟨-, hrest⟩ := huniqueFirst a' _ _ (fits_arguments ha hg.1 hm _)
        (fits_rpar ha' hg' y) (List.cons.inj he).2
      exact (hm.ne_rpar hrest).elim
    | @arguments a' m' ha' hm' =>
      simp only [Derivation.lexemes, List.append_assoc, List.cons_append, List.cons.injEq,
        true_and, Derivation.greedy, Bool.and_eq_true] at he hg'
      obtain ⟨rfl, hrest⟩ := huniqueFirst a' _ _ (fits_arguments ha hg.1 hm _)
        (fits_arguments ha' hg'.1 hm' _) he
      obtain ⟨rfl, rfl⟩ := huniqueMore m' x y hm hm' hg.2 hg'.2 hrest
      exact ⟨rfl, rfl⟩

/-! ## Applications -/

/-- What an application adds to its function: one atom, or several arguments in brackets. -/
inductive Item where
  | one (arg : Derivation)
  | many (first more : Derivation)

namespace Item

/-- The application to the item. -/
def onto : Item → Derivation → Derivation
  | .one a, f => .apply f a
  | .many a m, f => .applyMany f a m

/-- The lexemes of an item. -/
def lexemes : Item → List Lexeme
  | .one a => a.lexemes
  | .many a m => .lpar :: (a.lexemes ++ (m.lexemes ++ [.rpar]))

/-- The derivations in an item. -/
def parts : Item → List Derivation
  | .one a => [a]
  | .many a m => [a, m]

/-- The item was derived. -/
def Derived : Item → Prop
  | .one a => Derives .atomic a
  | .many a m => Derives .implication a ∧ Derives .arguments m

variable {i j : Item}

theorem lexemes_onto (i : Item) (f : Derivation) : (i.onto f).lexemes = f.lexemes ++ i.lexemes := by
  cases i <;> rfl

theorem greedy_onto (i : Item) (f : Derivation) :
    (i.onto f).greedy = true ↔ f.greedy = true ∧ ∀ s ∈ i.parts, s.greedy = true := by
  cases i <;> simp [onto, Derivation.greedy, parts]

/-- An item starts with a name or a bracket. -/
theorem exists_cons (h : i.Derived) : ∃ l ls, i.lexemes = l :: ls ∧ l.grip = 6 := by
  cases i with
  | one a =>
    have ha : Derives .atomic a := h
    exact ha.startsPlainly
  | many a m => exact ⟨.lpar, _, rfl, rfl⟩

/-- Several arguments are not one: after the first of them comes a comma. -/
theorem one_ne_many {a b m : Derivation} (ha : Derives .atomic a) (hb : Derives .implication b)
    (hm : Derives .arguments m) (hga : a.greedy = true) (hgb : b.greedy = true)
    (hunique : (∀ s, a = .group s → Unique 0 s) ∨ Unique 0 b)
    (he : (one a).lexemes ++ x = (many b m).lexemes ++ y) : False := by
  cases ha with
  | symbol hs => cases (List.cons.inj he).1
  | @group s hs =>
    simp only [lexemes, Derivation.lexemes, List.append_assoc, List.cons_append, List.nil_append,
      List.cons.injEq, true_and] at he
    have hrest : .rpar :: x = m.lexemes ++ .rpar :: y := by
      rcases hunique with hunique | hunique
      · exact (hunique s rfl b _ _ (fits_rpar hs hga x) (fits_arguments hb hgb hm _) he).2
      · exact (hunique s _ _ (fits_arguments hb hgb hm _) (fits_rpar hs hga x) he.symm).2.symm
    exact hm.ne_rpar hrest.symm

/-- The derivations in an item are settled. -/
def Settled (i : Item) : Prop :=
  match i with
  | .one a => Unique 6 a ∧ ∀ s, a = .group s → Unique 0 s
  | .many a m => Unique 0 a ∧ UniqueArguments m

/-- Nothing can lengthen an atom. -/
theorem fits_atomic (h : Derives .atomic t) (hg : t.greedy = true) (x : List Lexeme) :
    Fits 6 t x := by
  refine ⟨h, hg, fun l _ => ?_⟩
  rw [(Derives.application h).endsInBody_application]
  cases l with
  | binary op => cases op <;> decide
  | _ => simp [Lexeme.grip]

/-- **An item ends where it is closed**, one argument or several. -/
theorem eq_of_lexemes (hi : i.Derived) (hj : j.Derived)
    (hgi : ∀ s ∈ i.parts, s.greedy = true) (hgj : ∀ s ∈ j.parts, s.greedy = true)
    (hs : i.Settled) (he : i.lexemes ++ x = j.lexemes ++ y) : i = j ∧ x = y := by
  cases i with
  | one a => cases j with
    | one b =>
      obtain ⟨rfl, rfl⟩ := hs.1 b x y (fits_atomic hi (hgi a (by simp [parts])) x)
        (fits_atomic hj (hgj b (by simp [parts])) y) he
      exact ⟨rfl, rfl⟩
    | many b n =>
      exact (one_ne_many hi hj.1 hj.2 (hgi a (by simp [parts])) (hgj b (by simp [parts]))
        (Or.inl hs.2) he).elim
  | many a m => cases j with
    | one b =>
      exact (one_ne_many hj hi.1 hi.2 (hgj b (by simp [parts])) (hgi a (by simp [parts]))
        (Or.inr hs.1) he.symm).elim
    | many b n =>
      simp only [lexemes, List.append_assoc, List.cons_append, List.nil_append, List.cons.injEq,
        true_and] at he
      obtain ⟨rfl, hrest⟩ := hs.1 b _ _ (fits_arguments hi.1 (hgi a (by simp [parts])) hi.2 _)
        (fits_arguments hj.1 (hgj b (by simp [parts])) hj.2 _) he
      obtain ⟨rfl, rfl⟩ := hs.2 n x y hi.2 hj.2 (hgi m (by simp [parts]))
        (hgj n (by simp [parts])) hrest
      exact ⟨rfl, rfl⟩

end Item

/-- A derivation applied to a row of items. -/
def row (t : Derivation) (is : List Item) : Derivation :=
  is.foldl (fun f i => i.onto f) t

theorem lexemes_row (t : Derivation) (is : List Item) :
    (row t is).lexemes = t.lexemes ++ is.flatMap Item.lexemes := by
  induction is generalizing t with
  | nil => simp [row]
  | cons i is ih =>
    have hrow : row t (i :: is) = row (i.onto t) is := rfl
    rw [hrow, ih, Item.lexemes_onto, List.flatMap_cons, List.append_assoc]

theorem greedy_row (t : Derivation) (is : List Item) : (row t is).greedy = true ↔
    t.greedy = true ∧ ∀ i ∈ is, ∀ s ∈ i.parts, s.greedy = true := by
  induction is generalizing t with
  | nil => simp [row]
  | cons i is ih =>
    have hrow : row t (i :: is) = row (i.onto t) is := rfl
    rw [hrow, ih, Item.greedy_onto, List.forall_mem_cons, and_assoc]

theorem sizeOf_row (t : Derivation) (is : List Item) : sizeOf t ≤ sizeOf (row t is) ∧
    ∀ i ∈ is, ∀ s ∈ i.parts, sizeOf s < sizeOf (row t is) := by
  induction is generalizing t with
  | nil => simp [row]
  | cons i is ih =>
    obtain ⟨hle, hparts⟩ := ih (i.onto t)
    have honto : sizeOf t < sizeOf (i.onto t) ∧ ∀ s ∈ i.parts, sizeOf s < sizeOf (i.onto t) := by
      cases i <;> simp [Item.onto, Item.parts] <;> omega
    refine ⟨Nat.le_trans (Nat.le_of_lt honto.1) hle, List.forall_mem_cons.2 ⟨?_, hparts⟩⟩
    exact fun s hs => Nat.lt_of_lt_of_le (honto.2 s hs) hle

/-- **An application is an atom with a row of items behind it.** -/
theorem Derives.exists_row (h : Derives .application t) :
    ∃ b is, t = row b is ∧ Derives .atomic b ∧ ∀ i ∈ is, i.Derived := by
  generalize hn : Category.application = n at h
  induction h with
  | application h _ => exact ⟨_, [], rfl, h, by simp⟩
  | @apply f a hf ha ih _ =>
    obtain ⟨b, is, rfl, hb, his⟩ := ih rfl
    refine ⟨b, is ++ [.one a], by simp [row, Item.onto], hb, ?_⟩
    rw [List.forall_mem_append, List.forall_mem_singleton]
    exact ⟨his, ha⟩
  | @applyMany f a m hf ha hm ih _ _ =>
    obtain ⟨b, is, rfl, hb, his⟩ := ih rfl
    refine ⟨b, is ++ [.many a m], by simp [row, Item.onto], hb, ?_⟩
    rw [List.forall_mem_append, List.forall_mem_singleton]
    exact ⟨his, ha, hm⟩
  | _ => cases hn

/-- A row ends where no further item starts. -/
theorem eq_of_items {is js : List Item} (hi : ∀ i ∈ is, i.Derived) (hj : ∀ j ∈ js, j.Derived)
    (hgi : ∀ i ∈ is, ∀ s ∈ i.parts, s.greedy = true)
    (hgj : ∀ j ∈ js, ∀ s ∈ j.parts, s.greedy = true) (hs : ∀ i ∈ is, i.Settled)
    (hx : ∀ l ∈ x.head?, l.grip ≤ 5) (hy : ∀ l ∈ y.head?, l.grip ≤ 5)
    (he : is.flatMap Item.lexemes ++ x = js.flatMap Item.lexemes ++ y) : is = js ∧ x = y := by
  induction is generalizing js with
  | nil => cases js with
    | nil => exact ⟨rfl, he⟩
    | cons j js =>
      obtain ⟨l, ls, hl, hgrip⟩ := Item.exists_cons (hj j List.mem_cons_self)
      rw [List.flatMap_cons, hl, List.flatMap_nil, List.nil_append] at he
      have hle := hx l (by rw [he]; rfl)
      omega
  | cons i is ih =>
    rw [List.forall_mem_cons] at hi hgi hs
    cases js with
    | nil =>
      obtain ⟨l, ls, hl, hgrip⟩ := Item.exists_cons hi.1
      rw [List.flatMap_cons, hl, List.flatMap_nil, List.nil_append] at he
      have hle := hy l (by rw [← he]; rfl)
      omega
    | cons j js =>
      rw [List.forall_mem_cons] at hj hgj
      rw [List.flatMap_cons, List.flatMap_cons, List.append_assoc, List.append_assoc] at he
      obtain ⟨rfl, hrest⟩ := Item.eq_of_lexemes hi.1 hj.1 hgi.1 hgj.1 hs.1 he
      obtain ⟨rfl, rfl⟩ := ih hi.2 hj.2 hgi.2 hgj.2 hs.2 hrest
      exact ⟨rfl, rfl⟩

theorem unique_application
    (ih : ∀ s, sizeOf s < sizeOf t → Unique 0 s ∧ Unique 6 s ∧ UniqueArguments s) :
    Unique 5 t := by
  intro t' x y h h' he
  obtain ⟨b, is, rfl, hb, his⟩ := Derives.exists_row h.derives
  obtain ⟨b', js, rfl, hb', hjs⟩ := Derives.exists_row h'.derives
  obtain ⟨hsize, hsizes⟩ := sizeOf_row b is
  obtain ⟨hg, hgs⟩ := (greedy_row b is).1 h.greedy
  obtain ⟨hg', hgs'⟩ := (greedy_row b' js).1 h'.greedy
  have hcut : ∀ {s : Derivation} {z : List Lexeme}, Fits 5 s z → ∀ l ∈ z.head?, l.grip ≤ 5 := by
    intro s z hz l hl
    refine Nat.le_trans (hz.cut l hl) ?_
    split <;> omega
  have hgroup : ∀ {a s : Derivation}, a = .group s → sizeOf s < sizeOf a := by
    rintro a s rfl
    simp
  have hunique : Unique 6 b := unique_atomic fun s hs =>
    (ih s (Nat.lt_of_lt_of_le (hgroup hs) hsize)).1
  have hsettled : ∀ i ∈ is, i.Settled := by
    intro i hi
    have hparts := hsizes i hi
    cases i with
    | one a =>
      have ha := hparts a (by simp [Item.parts])
      exact ⟨(ih a ha).2.1, fun s hs => (ih s (Nat.lt_trans (hgroup hs) ha)).1⟩
    | many a m =>
      exact ⟨(ih a (hparts a (by simp [Item.parts]))).1,
        (ih m (hparts m (by simp [Item.parts]))).2.2⟩
  rw [lexemes_row, lexemes_row, List.append_assoc, List.append_assoc] at he
  obtain ⟨rfl, hrest⟩ := hunique b' _ _ (Item.fits_atomic hb hg _) (Item.fits_atomic hb' hg' _) he
  obtain ⟨rfl, rfl⟩ := eq_of_items his hjs hgs hgs' hsettled (hcut h) (hcut h') hrest
  exact ⟨rfl, rfl⟩

/-! ## All levels -/

/-- From the atoms to implications, every level is settled by the tighter one and by the
parts. -/
theorem unique (t : Derivation) : (∀ k ≤ 6, Unique k t) ∧ UniqueArguments t := by
  have ih : ∀ s, sizeOf s < sizeOf t → (∀ k ≤ 6, Unique k s) ∧ UniqueArguments s :=
    fun s _ => unique s
  have hsides : ∀ op l r, t = .binary op l r →
      Unique (grade op + 1) l ∧ Unique (rightGrade op) r := by
    rintro op l r rfl
    have hgrade : grade op + 1 ≤ 6 ∧ rightGrade op ≤ 6 := by cases op <;> decide
    have hsize := Derivation.binary.sizeOf_spec op l r
    exact ⟨(ih l (by omega)).1 _ hgrade.1, (ih r (by omega)).1 _ hgrade.2⟩
  have h6 : Unique 6 t := unique_atomic fun s hs => (ih s (by simp [hs])).1 0 (by omega)
  have h5 : Unique 5 t := unique_application fun s hs =>
    ⟨(ih s hs).1 0 (by omega), (ih s hs).1 6 (by omega), (ih s hs).2⟩
  have h4 : Unique 4 t := unique_grade .eq h5 (hsides .eq)
  have h3 : Unique 3 t := by
    refine unique_unary h4 (fun b hb => (ih b (by simp [hb])).1 3 (by omega)) ?_
    rintro q x a b rfl
    have hsize := Derivation.quant.sizeOf_spec q x a b
    exact (ih b (by omega)).1 0 (by omega)
  have h2 : Unique 2 t := unique_grade .and h3 (hsides .and)
  have h1 : Unique 1 t := unique_grade .or h2 (hsides .or)
  have h0 : Unique 0 t := unique_grade .imp h1 (hsides .imp)
  refine ⟨fun k hk => ?_, unique_arguments ?_ ?_⟩
  · obtain rfl | rfl | rfl | rfl | rfl | rfl | rfl :
      k = 0 ∨ k = 1 ∨ k = 2 ∨ k = 3 ∨ k = 4 ∨ k = 5 ∨ k = 6 := by omega
    all_goals assumption
  · exact fun a ha => (ih a (by simp [ha])).1 0 (by omega)
  · rintro a m rfl
    have hsize := Derivation.arguments.sizeOf_spec a m
    exact ⟨(ih a (by omega)).1 0 (by omega), (ih m (by omega)).2⟩
termination_by sizeOf t

/-- **Greedy derivations are told apart by their lexemes.** -/
theorem Derives.eq_of_lexemes_eq (h : Derives .start t) (h' : Derives .start t')
    (hg : t.greedy = true) (hg' : t'.greedy = true) (he : t.lexemes = t'.lexemes) : t = t' :=
  ((unique t).1 0 (by omega) t' [] [] ⟨h, hg, by simp⟩ ⟨h', hg', by simp⟩ (by rw [he])).1

end Refutation.Reading
