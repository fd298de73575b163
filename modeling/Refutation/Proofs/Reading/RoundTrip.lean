import Refutation.Proofs.Reading.Reread

/-!
# Printing and reading back

The printer puts brackets around binary connectives and around the bodies of quantifiers,
but not around negations and quantifiers themselves, and not around an argument that has
arguments of its own. So some formulas are not read back from their texts: `(∀x:i. A) ∧ B`
is printed as `(∀x:i.(A) ∧ B)`, where the body reaches to the closing bracket.
`Formula.wellBracketed` says where such formulas may stand.

A formula whose text is read as another one cannot be told by looking at its parts alone:
reading may take an argument from one function and give it to another. What is read has
the weight of what was printed, and that rules out the exchange.

* `Formula.rereads_iff`: the lexemes of a formula are read as this formula iff it is
  bracketed well.
* `parse_text_iff`: **a formula that was read is read back from its text iff it is bracketed
  well.**
-/

namespace Refutation

open Reading

/-! ## The phrase of a formula -/

namespace Formula

/-- A formula as it is written, with all annotations. -/
def phrase : Formula → Phrase
  | .var n _ => .name n
  | .const n _ => .name n
  | .app f a => .app f.phrase a.phrase
  | .not b => .not b.phrase
  | .binary op l r => .binary op l.phrase r.phrase
  | .quant q x τ b => .quant q x (some τ.text) b.phrase

theorem phrase_symbol (n : String) : (Signature.symbol n).phrase = .name n := by
  obtain ⟨τ, hτ⟩ := Signature.symbol_eq n
  rw [hτ]
  split <;> rfl

theorem Declared.resolve_phrase {f : Formula} (hf : f.Declared) : f.phrase.resolve = .ok f := by
  induction f with
  | var n τ => rw [phrase, Phrase.resolve, hf.2]
  | const n τ => rw [phrase, Phrase.resolve, hf.2]
  | app f a ihf iha =>
    simp only [phrase, Phrase.resolve, bind_eq_ok_iff]
    exact ⟨f, ihf hf.1, a, iha hf.2, rfl⟩
  | not b ih =>
    simp only [phrase, Phrase.resolve, bind_eq_ok_iff]
    exact ⟨b, ih hf, rfl⟩
  | binary op l r ihl ihr =>
    simp only [phrase, Phrase.resolve, bind_eq_ok_iff]
    exact ⟨l, ihl hf.1, r, ihr hf.2, rfl⟩
  | quant q x τ b ih =>
    have hτ : Signature.type (some τ.text) = .ok τ := by
      rcases hf.2.1 with rfl | rfl <;> rfl
    simp only [phrase, Phrase.resolve, bind_eq_ok_iff]
    exact ⟨b, ih hf.2.2, τ, hτ, rfl⟩

end Formula

namespace Reading

/-- The number of names, signs and annotations in a phrase. -/
def Phrase.weight : Phrase → Nat
  | .name _ => 1
  | .app f a => f.weight + a.weight
  | .not b => b.weight + 1
  | .binary _ l r => l.weight + r.weight + 1
  | .quant _ _ a b => b.weight + 1 + a.toList.length

/-- The number of names, signs and annotations in a frame. -/
def Frame.weight : Frame → Nat
  | .not => 1
  | .right _ l => l.weight + 1
  | .body _ _ a => 1 + a.toList.length
  | .group => 0
  | .argument f => f.weight

theorem Phrase.weight_pos (p : Phrase) : 0 < p.weight := by
  induction p <;> simp only [weight] <;> omega

theorem Frame.weight_fill (f : Frame) (p : Phrase) : (f.fill p).weight = p.weight + f.weight := by
  cases f <;> simp only [fill, weight, Phrase.weight] <;> omega

/-- Frames add the same weight to any phrase. -/
theorem weight_fillAll (p q : Phrase) (fs : List Frame) :
    (fillAll p fs).weight + q.weight = (fillAll q fs).weight + p.weight := by
  induction fs generalizing p q with
  | nil => exact Nat.add_comm _ _
  | cons f fs ih =>
    have hfill := ih (f.fill p) (f.fill q)
    simp only [Frame.weight_fill] at hfill
    simp only [fillAll_cons]
    omega

theorem fillAll_settle (done : Frame → Bool) (p : Phrase) (fs : List Frame) :
    fillAll (settle done p fs).1 (settle done p fs).2 = fillAll p fs := by
  induction fs generalizing p with
  | nil => rfl
  | cons f fs ih =>
    rw [settle]
    split
    · exact ih (f.fill p)
    · rfl

theorem text_of_type_eq_ok {a : String} {τ : Ty} (h : Signature.type (some a) = .ok τ) :
    τ.text = a := by
  unfold Signature.type at h
  split at h
  · rename_i he; cases he
  · rename_i he; cases he; cases h; rfl
  · rename_i he; cases he; cases h; rfl
  · cases h

/-- A phrase that stands for a formula has no more weight than the phrase of the formula, and
only that phrase has as much: any other lacks an annotation. -/
theorem Phrase.weight_le_of_resolve {p : Phrase} {f : Formula} (h : p.resolve = .ok f) :
    p.weight ≤ f.phrase.weight ∧ (f.phrase.weight ≤ p.weight → p = f.phrase) := by
  induction p generalizing f with
  | name s =>
    cases h
    rw [Formula.phrase_symbol]
    exact ⟨Nat.le_refl _, fun _ => rfl⟩
  | app k a ihk iha =>
    simp only [resolve, bind_eq_ok_iff] at h
    obtain ⟨fn, hk, arg, ha, h⟩ := h
    cases h
    obtain ⟨hkle, hkeq⟩ := ihk hk
    obtain ⟨hale, haeq⟩ := iha ha
    simp only [Formula.phrase, weight]
    refine ⟨by omega, fun hw => ?_⟩
    rw [hkeq (by omega), haeq (by omega)]
  | not b ih =>
    simp only [resolve, bind_eq_ok_iff] at h
    obtain ⟨body, hb, h⟩ := h
    cases h
    obtain ⟨hble, hbeq⟩ := ih hb
    simp only [Formula.phrase, weight]
    refine ⟨by omega, fun hw => ?_⟩
    rw [hbeq (by omega)]
  | binary op l r ihl ihr =>
    simp only [resolve, bind_eq_ok_iff] at h
    obtain ⟨left, hl, right, hr, h⟩ := h
    cases h
    obtain ⟨hlle, hleq⟩ := ihl hl
    obtain ⟨hrle, hreq⟩ := ihr hr
    simp only [Formula.phrase, weight]
    refine ⟨by omega, fun hw => ?_⟩
    rw [hleq (by omega), hreq (by omega)]
  | quant q x a b ih =>
    simp only [resolve, bind_eq_ok_iff] at h
    obtain ⟨body, hb, τ, hτ, h⟩ := h
    cases h
    obtain ⟨hble, hbeq⟩ := ih hb
    simp only [Formula.phrase, weight]
    cases a with
    | none =>
      simp only [Option.toList_none, Option.toList_some, List.length_nil, List.length_singleton]
      refine ⟨by omega, fun hw => ?_⟩
      omega
    | some a =>
      rw [text_of_type_eq_ok hτ]
      simp only [Option.toList_some, List.length_singleton]
      refine ⟨by omega, fun hw => ?_⟩
      rw [hbeq (by omega)]

/-- Whether a phrase is a negation or a quantifier. -/
def Phrase.isPrefixed : Phrase → Bool
  | .not _ => true
  | .quant _ _ _ _ => true
  | _ => false

end Reading

namespace Formula

variable {f a b l r : Formula}

/-- **What is read has the weight of what was printed.** -/
theorem weight_reread {o : Option Phrase} {p : Phrase} (h : f.reread o = some p) :
    (fillAll p f.opened).weight = f.phrase.weight + (Frame.behind o).weight := by
  induction f generalizing o p with
  | var n τ =>
    cases h
    exact Frame.weight_fill _ _
  | const n τ =>
    cases h
    exact Frame.weight_fill _ _
  | app f a ihf iha =>
    rw [reread] at h
    split at h
    · rename_i hsym
      simp only [Option.bind_eq_bind, Option.bind_eq_some_iff] at h
      obtain ⟨fn, hf, arg, ha, h⟩ := h
      cases h
      have hfn := ihf hf
      have harg := iha ha
      rw [opened_of_symbol hsym, fillAll_nil] at hfn
      simp only [opened, fillAll_nil, phrase, Phrase.weight, hfn, harg, Frame.behind, Frame.weight]
      omega
    · simp only [Option.bind_eq_bind, Option.bind_eq_some_iff] at h
      obtain ⟨fn, hf, q, ha, h⟩ := h
      cases h
      have hfn := ihf hf
      have harg := iha ha
      have hframes := weight_fillAll q fn f.opened
      rw [opened_of_reread ha, fillAll_nil] at harg
      simp only [Frame.behind, Frame.weight] at hfn harg
      simp only [opened, fillAll_nil, phrase, Frame.weight_fill, Phrase.weight]
      omega
  | not b ih =>
    rw [reread] at h
    split at h
    · cases h
    · rename_i ho
      have hb := ih h
      rw [opened, fillAll_append, fillAll_cons, fillAll_nil, Frame.weight_fill, hb]
      cases o with
      | some c => exact absurd rfl ho
      | none => rfl
  | binary op l r ihl ihr =>
    rw [reread] at h
    split at h
    · cases h
    · simp only [Option.bind_eq_bind, Option.bind_eq_some_iff] at h
      obtain ⟨left, hl, right, hr, h⟩ := h
      cases h
      have hleft := ihl hl
      have hright := ihr hr
      rw [← fillAll_settle (·.endsBefore op)] at hleft
      have hframes := weight_fillAll (.binary op (settle (·.endsBefore op) left l.opened).1
        (fillAll right r.opened)) (settle (·.endsBefore op) left l.opened).1
        (settle (·.endsBefore op) left l.opened).2
      simp only [Frame.behind, Frame.weight] at hleft hright
      simp only [Phrase.weight] at hframes
      simp only [opened, fillAll_nil, phrase, Frame.weight_fill, Phrase.weight]
      omega
  | quant q x τ b ih =>
    rw [reread] at h
    split at h
    · cases h
    · rename_i ho
      simp only [Option.bind_eq_bind, Option.bind_eq_some_iff] at h
      obtain ⟨body, hb, h⟩ := h
      cases h
      have hbody := ih hb
      rw [opened, fillAll_cons, fillAll_nil, Frame.weight_fill, hbody]
      cases o with
      | some c => exact absurd rfl ho
      | none => simp only [phrase, Phrase.weight, Frame.behind, Frame.weight]; omega

/-! ## Where brackets would be needed -/

/-- Whether a formula is complete when the connective comes next. The body of a quantifier
goes on, and a negation takes in an equality. -/
def endsBefore (op : Connective) : Formula → Bool
  | .not b => decide (op ≠ .eq) && b.endsBefore op
  | .quant _ _ _ _ => false
  | _ => true

/-- A symbol alone or a formula in brackets, which may stand behind a function. -/
def isUnit : Formula → Bool
  | .var _ _ => true
  | .const _ _ => true
  | .app f _ => f.head.symbol?.isNone
  | .binary _ _ _ => true
  | _ => false

/-- No brackets are missing in the text. The left side of a connective ends before it, the
right side of an equality is neither a negation nor a quantifier, and a function that is
no symbol is neither of these and has a unit as its argument. -/
def wellBracketed : Formula → Bool
  | .var _ _ => true
  | .const _ _ => true
  | .app f a =>
    f.wellBracketed && a.wellBracketed &&
      (f.head.symbol?.isSome || !f.isPrefixed && a.isUnit)
  | .not b => b.wellBracketed
  | .binary op l r =>
    l.wellBracketed && r.wellBracketed && l.endsBefore op && !(decide (op = .eq) && r.isPrefixed)
  | .quant _ _ _ b => b.wellBracketed

/-- The lexemes of a formula are read as this formula. -/
def Rereads (f : Formula) : Prop :=
  ∃ c, f.reread none = some c ∧ fillAll c f.opened = f.phrase

theorem isPrefixed_fillAll (h : f.isPrefixed) (p : Phrase) :
    (fillAll p f.opened).isPrefixed = true := by
  cases f with
  | not b => rw [opened, fillAll_append]; rfl
  | quant q x τ b => rfl
  | _ => cases h

theorem Rereads.reread_eq (hf : f.Rereads) (hp : f.isPrefixed = false) :
    f.reread none = some f.phrase := by
  obtain ⟨c, hc, he⟩ := hf
  rw [opened_eq_nil_iff.2 hp, fillAll_nil] at he
  rw [hc, he]

/-- A unit is read in the same way behind a function as at the start of a phrase. -/
theorem reread_of_isUnit (h : a.isUnit) (fn : Phrase) :
    a.reread (some fn) = (a.reread none).map (.app fn) := by
  cases a with
  | var n τ => rfl
  | const n τ => rfl
  | app f b =>
    have hn : ¬ f.head.symbol?.isSome := by
      simpa [isUnit] using h
    rw [reread, reread, if_neg hn, if_neg hn]
    cases f.reread none with
    | none => rfl
    | some c => cases hb : b.reread (some c) <;> simp [hb, Frame.behind, Frame.fill]
  | binary op l r =>
    rw [reread, reread]
    split
    · rfl
    · cases l.reread none with
      | none => rfl
      | some left => cases hr : r.reread none <;> simp [Frame.behind, Frame.fill]
  | _ => cases h

theorem isPrefixed_of_isUnit (h : a.isUnit) : a.isPrefixed = false := by
  cases a <;> first | rfl | cases h

/-- An argument with arguments of its own loses the last one to the function it stands
behind. -/
theorem isUnit_of_reread {fn k : Phrase} (h : a.reread (some fn) = some (.app k a.phrase)) :
    a.isUnit = true := by
  cases a with
  | app f b =>
    cases hn : f.head.symbol? with
    | none => simp [isUnit, hn]
    | some n =>
      rw [reread, hn, Option.isSome_some, if_pos rfl] at h
      simp only [Option.bind_eq_bind, Option.bind_eq_some_iff] at h
      obtain ⟨fn', -, arg, hb, he⟩ := h
      have harg : fillAll arg b.opened = (app f b).phrase := by
        simp only [pure, Option.some.injEq, Phrase.app.injEq] at he
        exact he.2
      -- the last argument alone would weigh as much as all
      have hw := weight_reread hb
      have hpos := f.phrase.weight_pos
      rw [harg] at hw
      simp only [phrase, Phrase.weight, Frame.behind, Frame.weight] at hw
      omega
  | not b => cases h
  | quant q x τ b => cases h
  | _ => rfl

theorem rereads_app_of_symbol (hn : f.head.symbol?.isSome) :
    (app f a).Rereads ↔ f.Rereads ∧ a.Rereads := by
  have hopen := opened_of_symbol hn
  unfold Rereads
  rw [reread, if_pos hn, hopen]
  simp only [Option.bind_eq_bind, Option.bind_eq_some_iff, opened, fillAll_nil, phrase]
  constructor
  · rintro ⟨c, ⟨fn, hf, arg, ha, he⟩, hc⟩
    cases he
    obtain ⟨hfn, harg⟩ := Phrase.app.inj hc
    exact ⟨⟨fn, hf, hfn⟩, arg, ha, harg⟩
  · rintro ⟨⟨fn, hf, hfn⟩, arg, ha, harg⟩
    exact ⟨_, ⟨fn, hf, arg, ha, rfl⟩, by rw [hfn, harg]⟩

theorem rereads_app_of_none (hn : f.head.symbol? = none) : (app f a).Rereads ↔
    (f.Rereads ∧ a.Rereads) ∧ f.isPrefixed = false ∧ a.isUnit = true := by
  constructor
  · rintro ⟨c, hc, he⟩
    rw [reread, hn] at hc
    simp only [Option.isSome_none, Bool.false_eq_true, if_false, Option.bind_eq_bind,
      Option.bind_eq_some_iff] at hc
    obtain ⟨fn, hf, p, ha, hp⟩ := hc
    cases hp
    have happ : fillAll p f.opened = .app f.phrase a.phrase := he
    have hpre : f.isPrefixed = false := by
      refine Bool.eq_false_iff.2 fun hpre => ?_
      have := isPrefixed_fillAll hpre p
      rw [happ] at this; cases this
    rw [opened_eq_nil_iff.2 hpre, fillAll_nil] at happ
    subst happ
    have hunit := isUnit_of_reread ha
    rw [reread_of_isUnit hunit, Option.map_eq_some_iff] at ha
    obtain ⟨arg, harg, heq⟩ := ha
    obtain ⟨rfl, rfl⟩ := Phrase.app.inj heq
    refine ⟨⟨⟨_, hf, ?_⟩, ⟨_, harg, ?_⟩⟩, hpre, hunit⟩
    · rw [opened_eq_nil_iff.2 hpre]; rfl
    · rw [opened_eq_nil_iff.2 (isPrefixed_of_isUnit hunit)]; rfl
  · rintro ⟨⟨hf, ha⟩, hpre, hunit⟩
    have hfn := hf.reread_eq hpre
    have harg := ha.reread_eq (isPrefixed_of_isUnit hunit)
    refine ⟨.app f.phrase a.phrase, ?_, rfl⟩
    rw [reread, hn]
    simp only [Option.isSome_none, Bool.false_eq_true, if_false, hfn, Option.bind_eq_bind,
      Option.bind_some, reread_of_isUnit hunit, harg, Option.map_some, opened_eq_nil_iff.2 hpre]
    rfl

theorem rereads_not : (not b).Rereads ↔ b.Rereads := by
  unfold Rereads
  simp only [reread, Option.isSome_none, Bool.false_eq_true, if_false, opened, fillAll_append,
    fillAll_cons, fillAll_nil, Frame.fill, phrase, Phrase.not.injEq]

theorem rereads_quant {q : Quantifier} {x : String} {τ : Ty} :
    (quant q x τ b).Rereads ↔ b.Rereads := by
  unfold Rereads
  simp only [reread, Option.isSome_none, Bool.false_eq_true, if_false, Option.bind_eq_bind,
    Option.bind_eq_some_iff, opened, fillAll_cons, fillAll_nil, Frame.fill, phrase,
    Phrase.quant.injEq, true_and]
  constructor
  · rintro ⟨c, ⟨body, hb, he⟩, hc⟩
    cases he
    exact ⟨body, hb, hc⟩
  · rintro ⟨body, hb, hc⟩
    exact ⟨_, ⟨body, hb, rfl⟩, hc⟩

/-! ## Connectives -/

variable {op : Connective}

theorem isPrefixed_of_not_endsBefore (h : l.endsBefore op = false) : l.isPrefixed = true := by
  cases l <;> first | rfl | cases h

theorem settle_of_endsBefore (h : l.endsBefore op) (p : Phrase) :
    settle (·.endsBefore op) p l.opened = (fillAll p l.opened, []) := by
  refine settle_of_forall (fun g hg => ?_) p
  induction l with
  | not b ih =>
    rw [endsBefore, Bool.and_eq_true] at h
    rw [opened, List.mem_append, List.mem_singleton] at hg
    rcases hg with hg | rfl
    · exact ih h.2 hg
    · exact h.1
  | quant q x τ b _ => cases h
  | _ => cases hg

theorem settle_of_not_endsBefore (h : l.endsBefore op = false) (p : Phrase) :
    settle (·.endsBefore op) p l.opened = (p, l.opened) := by
  -- the innermost frame decides
  have hfirst : ∃ g gs, l.opened = g :: gs ∧ g.endsBefore op = false := by
    induction l with
    | not b ih =>
      by_cases hop : op = .eq
      · subst hop
        cases hb : b.opened with
        | nil => exact ⟨.not, [], by rw [opened, hb]; rfl, rfl⟩
        | cons g gs =>
          refine ⟨g, gs ++ [.not], by rw [opened, hb]; rfl, ?_⟩
          exact endsBefore_eq_of_mem_opened (f := b) (by rw [hb]; exact List.mem_cons_self)
      · have hb : b.endsBefore op = false := by simpa [endsBefore, hop] using h
        obtain ⟨g, gs, hopen, hg⟩ := ih hb
        exact ⟨g, gs ++ [.not], by rw [opened, hopen]; rfl, hg⟩
    | quant q x τ b _ => exact ⟨.body q x (some τ.text), [], rfl, rfl⟩
    | _ => cases h
  obtain ⟨g, gs, hopen, hg⟩ := hfirst
  rw [hopen, settle, if_neg (by simp [hg])]

/-- A connective is read as such iff its left side ends before it. -/
theorem rereads_binary : (binary op l r).Rereads ↔
    (l.Rereads ∧ r.Rereads) ∧ l.endsBefore op = true ∧ ¬ (op = .eq ∧ r.isPrefixed = true) := by
  constructor
  · rintro ⟨c, hc, he⟩
    rw [reread] at hc
    split at hc
    · cases hc
    · rename_i hside
      simp only [Option.bind_eq_bind, Option.bind_eq_some_iff] at hc
      obtain ⟨left, hl, right, hr, hp⟩ := hc
      cases hp
      have hbin : fillAll (.binary op (settle (·.endsBefore op) left l.opened).1
          (fillAll right r.opened)) (settle (·.endsBefore op) left l.opened).2 =
            .binary op l.phrase r.phrase := he
      have hends : l.endsBefore op = true := by
        refine Bool.not_eq_false _ ▸ fun hends => ?_
        rw [settle_of_not_endsBefore hends] at hbin
        have := isPrefixed_fillAll (isPrefixed_of_not_endsBefore hends)
          (.binary op left (fillAll right r.opened))
        rw [hbin] at this; cases this
      rw [settle_of_endsBefore hends, fillAll_nil] at hbin
      obtain ⟨-, hleft, hright⟩ := Phrase.binary.inj hbin
      exact ⟨⟨⟨left, hl, hleft⟩, right, hr, hright⟩, hends, hside⟩
  · rintro ⟨⟨⟨left, hl, hleft⟩, right, hr, hright⟩, hends, hside⟩
    refine ⟨.binary op l.phrase r.phrase, ?_, rfl⟩
    rw [reread, if_neg hside, hl, hr]
    simp only [Option.bind_eq_bind, Option.bind_some, settle_of_endsBefore hends, hleft, hright]
    rfl

/-- **The lexemes of a formula are read as this formula iff it is bracketed well.** -/
theorem rereads_iff (f : Formula) : f.Rereads ↔ f.wellBracketed = true := by
  induction f with
  | var n τ => exact ⟨fun _ => rfl, fun _ => ⟨_, rfl, rfl⟩⟩
  | const n τ => exact ⟨fun _ => rfl, fun _ => ⟨_, rfl, rfl⟩⟩
  | app f a ihf iha =>
    cases hn : f.head.symbol? with
    | some n =>
      rw [rereads_app_of_symbol (by simp [hn]), ihf, iha]
      simp [wellBracketed, hn]
    | none =>
      rw [rereads_app_of_none hn, ihf, iha]
      simp [wellBracketed, hn]
  | not b ih => rw [rereads_not, ih]; rfl
  | binary op l r ihl ihr =>
    rw [rereads_binary, ihl, ihr]
    simp [wellBracketed, and_assoc, Decidable.imp_iff_not_or]
  | quant q x τ b ih => rw [rereads_quant, ih]; rfl

/-- A declared formula is read back from its text iff it is bracketed well. -/
theorem Declared.parse_text_eq_self_iff (hf : f.Declared) :
    parse f.text = .ok f ↔ f.wellBracketed = true := by
  rw [hf.parse_text_eq_ok_iff, ← rereads_iff]
  constructor
  · rintro ⟨p, hp, hres⟩
    obtain ⟨c, hc, rfl⟩ := readPhrase_lexemes_eq_ok_iff.1 hp
    have hweight := weight_reread hc
    exact ⟨c, hc, (Phrase.weight_le_of_resolve hres).2 (Nat.le_of_eq hweight.symm)⟩
  · rintro ⟨c, hc, he⟩
    exact ⟨f.phrase, readPhrase_lexemes_eq_ok_iff.2 ⟨c, hc, he⟩, hf.resolve_phrase⟩

end Formula

/-- **A formula that was read is read back from its text iff it is bracketed well.** -/
theorem parse_text_iff {text : String} {f : Formula} (h : parse text = .ok f) :
    parse f.text = .ok f ↔ f.wellBracketed = true :=
  (declared_of_parse h).parse_text_eq_self_iff

/-- An implication in the body of a quantifier is read back, negated equality and all. -/
theorem parse_text_universal_implication :
    let x := Formula.var "x" .individual
    let f := Formula.all "x" .individual (.imp (.app (.const "P" (.fn .individual .truth)) x)
      (.not (.eq x (.var "y" .individual))))
    parse "!x. P x -> ~ x = y" = .ok f ∧ parse f.text = .ok f := by
  have hparse : parse "!x. P x -> ~ x = y" = .ok (.all "x" .individual
      (.imp (.app (.const "P" (.fn .individual .truth)) (.var "x" .individual))
        (.not (.eq (.var "x" .individual) (.var "y" .individual))))) := rfl
  exact ⟨hparse, (parse_text_iff hparse).2 rfl⟩

/-- A quantifier at the left of a conjunction is read back with the conjunction in its
body. -/
theorem parse_text_ne_quantified_conjunct :
    let f := Formula.and (.all "x" .individual (.const "A" .truth)) (.const "B" .truth)
    parse "(∀x:i. A) ∧ B" = .ok f ∧ f.text = "(∀x:i.(A) ∧ B)" ∧ parse f.text ≠ .ok f := by
  have hparse : parse "(∀x:i.(A) ∧ B)" = .ok (.all "x" .individual
      (.and (.const "A" .truth) (.const "B" .truth))) := rfl
  refine ⟨rfl, rfl, fun h => ?_⟩
  have htext : (Formula.and (.all "x" .individual (.const "A" .truth)) (.const "B" .truth)).text =
      "(∀x:i.(A) ∧ B)" := rfl
  rw [htext, hparse] at h
  cases h

end Refutation
