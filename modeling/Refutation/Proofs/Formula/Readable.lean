import Refutation.Formula.Printer
import Refutation.Proofs.Formula.Types
import Refutation.Reading.Token

/-!
# Texts can be read in one way only

If all names are names of the reader, the text of a formula tells all of it but the types
of its symbols and which of them are variables (`Formula.spelled`). This holds in any
surroundings: what follows the text may be anything but a character that would lengthen a
name or open the arguments of a symbol (`Stops`).

* `Formula.Named.legible`: **a text followed by a stop is the text of one formula only.**
* `Formula.spelled_eq_iff`: where names tell variables from constants, formulas are spelled
  alike exactly if they are equal up to the types of their symbols.
-/

namespace Refutation

open Reading (isNameStart isNameChar)

namespace Reading

/-- Whether a text is a name. -/
def isName (n : String) : Bool :=
  match n.toList with
  | [] => false
  | c :: cs => isNameStart c && cs.all isNameChar

theorem isNameChar_of_isNameStart {c : Char} (h : isNameStart c) : isNameChar c := by
  simp only [isNameStart, isNameChar, Char.isAlphanum, Bool.or_eq_true] at h ⊢
  exact h.imp_left Or.inl

theorem isName_iff {n : String} :
    isName n ↔ ∃ c cs, n.toList = c :: cs ∧ isNameStart c ∧ ∀ d ∈ cs, isNameChar d := by
  unfold isName
  cases n.toList with
  | nil => simp
  | cons c cs =>
    rw [Bool.and_eq_true, List.all_eq_true]
    exact ⟨fun h => ⟨c, cs, rfl, h.1, h.2⟩, fun ⟨_, _, he, h⟩ => by cases he; exact h⟩

theorem isNameChar_of_isName {n : String} (h : isName n) {c : Char} (hc : c ∈ n.toList) :
    isNameChar c := by
  obtain ⟨d, ds, hd, hs, hds⟩ := isName_iff.1 h
  rw [hd, List.mem_cons] at hc
  rcases hc with rfl | hc
  · exact isNameChar_of_isNameStart hs
  · exact hds c hc

end Reading

open Reading (isName isName_iff isNameChar_of_isName)

/-- The next character neither goes on with a name nor opens arguments. -/
def Stops (r : List Char) : Prop :=
  ∀ c ∈ r.head?, isNameChar c = false ∧ c ≠ '('

/-- A name reaches up to the first character that cannot go on with it. -/
theorem name_append_inj {m n : String} {r s : List Char} (hm : isName m) (hn : isName n)
    (hr : ∀ c ∈ r.head?, isNameChar c = false) (hs : ∀ c ∈ s.head?, isNameChar c = false)
    (h : m.toList ++ r = n.toList ++ s) : m = n ∧ r = s := by
  have key : ∀ (as bs : List Char), (∀ c ∈ as, isNameChar c) → (∀ c ∈ bs, isNameChar c) →
      as ++ r = bs ++ s → as = bs ∧ r = s := by
    intro as
    induction as with
    | nil =>
      intro bs _ hbs h
      cases bs with
      | nil => exact ⟨rfl, h⟩
      | cons b bs =>
        rw [List.nil_append] at h
        have := hr b (by rw [h]; simp)
        rw [hbs b List.mem_cons_self] at this; cases this
    | cons a as ih =>
      intro bs has hbs h
      cases bs with
      | nil =>
        rw [List.nil_append] at h
        have := hs a (by rw [← h]; simp)
        rw [has a List.mem_cons_self] at this; cases this
      | cons b bs =>
        rw [List.cons_append, List.cons_append, List.cons.injEq] at h
        obtain ⟨rfl, h⟩ := h
        obtain ⟨rfl, hrs⟩ := ih bs (fun c hc => has c (List.mem_cons_of_mem _ hc))
          (fun c hc => hbs c (List.mem_cons_of_mem _ hc)) h
        exact ⟨rfl, hrs⟩
  obtain ⟨hmn, hrs⟩ := key _ _ (fun c hc => isNameChar_of_isName hm hc)
    (fun c hc => isNameChar_of_isName hn hc) h
  exact ⟨String.toList_inj.1 hmn, hrs⟩

/-- The text of a type tells the type and its own end. -/
theorem Ty.text_append_inj {a b : Ty} {r s : List Char}
    (h : a.text.toList ++ r = b.text.toList ++ s) : a = b ∧ r = s := by
  induction a generalizing b r s with
  | fn a₁ a₂ ih₁ ih₂ =>
    cases b with
    | fn b₁ b₂ =>
      simp only [Ty.text, String.toList_append, List.append_assoc] at h
      obtain ⟨rfl, h₁⟩ := ih₁ (List.append_cancel_left h)
      obtain ⟨rfl, h₂⟩ := ih₂ (List.append_cancel_left h₁)
      exact ⟨rfl, List.append_cancel_left h₂⟩
    | _ => simp [Ty.text] at h
  | _ => cases b <;> first | exact ⟨rfl, List.append_cancel_left h⟩ | simp [Ty.text] at h

theorem Connective.sign_append_inj {a b : Connective} {r s : List Char}
    (h : a.sign.toList ++ r = b.sign.toList ++ s) : a = b ∧ r = s := by
  cases a <;> cases b <;> simp [Connective.sign] at h ⊢ <;> exact h

theorem Quantifier.sign_append_inj {a b : Quantifier} {r s : List Char}
    (h : a.sign.toList ++ r = b.sign.toList ++ s) : a = b ∧ r = s := by
  cases a <;> cases b <;> simp [Quantifier.sign] at h ⊢ <;> exact h

namespace Formula

/-- All names are names of the reader. -/
structure Named (f : Formula) : Prop where
  constants : ∀ n ∈ f.constants, isName n
  varNames : ∀ n ∈ f.varNames, isName n
  binders : ∀ n ∈ f.binders, isName n

/-- The formula without what its text does not tell: the types of its symbols and which of
them are variables. -/
def spelled : Formula → Formula
  | .var n _ => .const n .individual
  | .const n _ => .const n .individual
  | .app f a => .app f.spelled a.spelled
  | .not b => .not b.spelled
  | .binary op a b => .binary op a.spelled b.spelled
  | .quant q n τ b => .quant q n τ b.spelled

variable {f g a b : Formula} {n : String} {r s : List Char}

namespace Named

theorem app_left (h : (app f a).Named) : f.Named :=
  ⟨fun n hn => h.constants n (List.mem_append_left _ hn),
    fun n hn => h.varNames n (List.mem_append_left _ hn),
    fun n hn => h.binders n (List.mem_append_left _ hn)⟩

theorem app_right (h : (app f a).Named) : a.Named :=
  ⟨fun n hn => h.constants n (List.mem_append_right _ hn),
    fun n hn => h.varNames n (List.mem_append_right _ hn),
    fun n hn => h.binders n (List.mem_append_right _ hn)⟩

theorem binary_left {op : Connective} (h : (binary op f a).Named) : f.Named :=
  app_left (a := a) ⟨h.constants, h.varNames, h.binders⟩

theorem binary_right {op : Connective} (h : (binary op f a).Named) : a.Named :=
  app_right (f := f) ⟨h.constants, h.varNames, h.binders⟩

theorem not_body (h : (not b).Named) : b.Named := ⟨h.constants, h.varNames, h.binders⟩

theorem quant_body {q : Quantifier} {τ : Ty} (h : (quant q n τ b).Named) : b.Named :=
  ⟨h.constants, h.varNames, fun m hm => h.binders m (List.mem_cons_of_mem _ hm)⟩

theorem of_mem_args (h : f.Named) (ha : a ∈ f.args) : a.Named := by
  induction f with
  | app f c ihf _ =>
    rw [args, List.mem_append, List.mem_singleton] at ha
    rcases ha with ha | rfl
    · exact ihf h.app_left ha
    · exact h.app_right
  | _ => cases ha

theorem isName_head (h : f.Named) (hn : f.head.symbol? = some n) : isName n := by
  induction f with
  | app f c ihf _ => exact ihf h.app_left hn
  | var m τ => cases hn; exact h.varNames n List.mem_cons_self
  | const m τ => cases hn; exact h.constants n List.mem_cons_self
  | _ => cases hn

end Named

/-! ## Symbols and their arguments -/

/-- The arguments that follow the first one, up to the closing bracket. -/
def furtherChars : List Formula → List Char
  | [] => [')']
  | a :: as => ',' :: ' ' :: (a.text.toList ++ furtherChars as)

/-- The bracketed arguments of a symbol, nothing if there are none. -/
def argChars : List Formula → List Char
  | [] => []
  | a :: as => '(' :: (a.text.toList ++ furtherChars as)

theorem intercalate_append_eq (a : Formula) (as : List Formula) :
    (", ".intercalate ((a :: as).map text)).toList ++ [')'] =
      a.text.toList ++ furtherChars as := by
  induction as generalizing a with
  | nil => simp [furtherChars]
  | cons b bs ih =>
    have hb := ih b
    simp only [List.map_cons, String.toList_intercalate, furtherChars] at hb ⊢
    rw [List.intercalate_cons_cons, ← hb]
    simp

/-- The text of an application of a symbol. -/
theorem toList_text_of_symbol (hn : f.head.symbol? = some n) :
    f.text.toList = n.toList ++ argChars f.args := by
  cases f with
  | app f a =>
    have hn' : f.head.symbol? = some n := hn
    rw [text, hn']
    obtain ⟨c, cs, hc⟩ : ∃ c cs, (app f a).args = c :: cs := by
      cases h : (app f a).args with
      | nil => simp [args] at h
      | cons c cs => exact ⟨c, cs, rfl⟩
    have hargs : f.argTexts ++ [text a] = (c :: cs).map text := by
      rw [← hc, args, argTexts_eq]; simp
    simp only [hargs, hc, argChars, String.toList_append, ← intercalate_append_eq]
    simp
  | var m τ => cases hn; simp [text, args, argChars]
  | const m τ => cases hn; simp [text, args, argChars]
  | _ => cases hn

theorem spelled_applyAll (f : Formula) (as : List Formula) :
    (f.applyAll as).spelled = f.spelled.applyAll (as.map spelled) := by
  induction as generalizing f with
  | nil => rfl
  | cons a as ih => exact ih (.app f a)

theorem spelled_of_symbol (hn : f.head.symbol? = some n) :
    f.spelled = (const n .individual).applyAll (f.args.map spelled) := by
  have hhead : f.head.spelled = const n .individual := by
    cases h : f.head with
    | var m τ => rw [h] at hn; cases hn; rfl
    | const m τ => rw [h] at hn; cases hn; rfl
    | _ => rw [h] at hn; cases hn
  rw [← hhead, ← spelled_applyAll, applyAll_head_args]

/-! ## What a text starts with -/

/-- What the first character of a text tells. -/
inductive Lead where
  | name | bracket | not
  | quant (q : Quantifier)

/-- What a character tells at the start of a text. -/
def leadOf? (c : Char) : Option Lead :=
  if isNameStart c then some .name
  else match c with
    | '(' => some .bracket
    | '¬' => some .not
    | '∀' => some (.quant .all)
    | '∃' => some (.quant .ex)
    | _ => none

/-- What the text of a formula starts with. -/
def lead : Formula → Lead
  | .var _ _ => .name
  | .const _ _ => .name
  | .app f _ => if f.head.symbol? = none then .bracket else .name
  | .not _ => .not
  | .binary _ _ _ => .bracket
  | .quant q _ _ _ => .quant q

theorem lead_eq_name (hn : f.head.symbol? = some n) : f.lead = .name := by
  cases f with
  | app f a => exact if_neg (by rw [show f.head.symbol? = some n from hn]; simp)
  | var m τ => rfl
  | const m τ => rfl
  | _ => cases hn

theorem exists_symbol_of_lead (h : f.lead = .name) : ∃ n, f.head.symbol? = some n := by
  cases f with
  | var n τ => exact ⟨n, rfl⟩
  | const n τ => exact ⟨n, rfl⟩
  | app f a =>
    refine Option.ne_none_iff_exists'.1 fun hn => ?_
    have hn' : f.head.symbol? = none := hn
    rw [lead, if_pos hn'] at h; cases h
  | _ => cases h

theorem exists_of_lead_bracket (h : f.lead = .bracket) :
    (∃ op a b, f = .binary op a b) ∨ ∃ k a, f = .app k a ∧ k.head.symbol? = none := by
  cases f with
  | binary op a b => exact Or.inl ⟨op, a, b, rfl⟩
  | app k a =>
    refine Or.inr ⟨k, a, rfl, ?_⟩
    by_cases hn : k.head.symbol? = none
    · exact hn
    · rw [lead, if_neg hn] at h; cases h
  | _ => cases h

theorem toList_text_not (b : Formula) (r : List Char) :
    (not b).text.toList ++ r = '¬' :: (b.text.toList ++ r) := by
  simp [text]

theorem toList_text_binary (op : Connective) (a b : Formula) (r : List Char) :
    (binary op a b).text.toList ++ r = '(' :: (a.text.toList ++ ' ' :: (op.sign.toList ++
      ' ' :: (b.text.toList ++ ')' :: r))) := by
  simp [text]

theorem toList_text_app (hn : f.head.symbol? = none) (a : Formula) (r : List Char) :
    (app f a).text.toList ++ r =
      '(' :: (f.text.toList ++ ' ' :: (a.text.toList ++ ')' :: r)) := by
  simp [text, hn]

theorem toList_text_quant (q : Quantifier) (n : String) (τ : Ty) (b : Formula) (r : List Char) :
    (quant q n τ b).text.toList ++ r = q.sign.toList ++ (n.toList ++ ':' :: (τ.text.toList ++
      '.' :: '(' :: (b.text.toList ++ ')' :: r))) := by
  simp [text]

/-- A text starts with a character that tells what it starts with. -/
theorem exists_lead (hf : f.Named) (r : List Char) :
    ∃ c cs, f.text.toList ++ r = c :: cs ∧ leadOf? c = some f.lead := by
  have hsym : ∀ n, f.head.symbol? = some n →
      ∃ c cs, f.text.toList ++ r = c :: cs ∧ leadOf? c = some f.lead := by
    intro n hn
    obtain ⟨c, cs, hc, hs, -⟩ := isName_iff.1 (hf.isName_head hn)
    refine ⟨c, cs ++ argChars f.args ++ r, by rw [toList_text_of_symbol hn, hc]; simp, ?_⟩
    rw [lead_eq_name hn]
    exact if_pos hs
  cases f with
  | var n τ => exact hsym n rfl
  | const n τ => exact hsym n rfl
  | app f a =>
    cases hn : f.head.symbol? with
    | some n => exact hsym n hn
    | none => exact ⟨_, _, toList_text_app hn a r, by rw [lead, if_pos hn]; rfl⟩
  | not b => exact ⟨_, _, toList_text_not b r, rfl⟩
  | binary op a b => exact ⟨_, _, toList_text_binary op a b r, rfl⟩
  | quant q n τ b =>
    cases q with
    | all => exact ⟨_, _, toList_text_quant .all n τ b r, rfl⟩
    | ex => exact ⟨_, _, toList_text_quant .ex n τ b r, rfl⟩

theorem lead_eq_of_text (hf : f.Named) (hg : g.Named)
    (h : f.text.toList ++ r = g.text.toList ++ s) : f.lead = g.lead := by
  obtain ⟨c, cs, hc, hcf⟩ := exists_lead hf r
  obtain ⟨d, ds, hd, hdg⟩ := exists_lead hg s
  rw [hc, hd, List.cons.injEq] at h
  rw [h.1, hdg] at hcf
  exact (Option.some.inj hcf).symm

/-- No text starts with the sign of a connective. -/
theorem text_ne_sign (hf : f.Named) (op : Connective) :
    f.text.toList ++ r ≠ op.sign.toList ++ s := by
  obtain ⟨c, cs, hc, hcf⟩ := exists_lead hf r
  rw [hc]
  intro h
  have hnone : leadOf? c = none := by
    cases op <;> simp [Connective.sign] at h <;> rw [h.1] <;> rfl
  rw [hnone] at hcf; cases hcf

/-! ## One text, one formula -/

/-- In any surroundings, what has the text of `f` is spelled like `f`. -/
def Legible (f : Formula) : Prop :=
  ∀ (g : Formula) (r s : List Char), g.Named → Stops r → Stops s → f.text.toList ++ r = g.text.toList ++ s →
    f.spelled = g.spelled ∧ r = s

theorem stops_furtherChars (as : List Formula) (r : List Char) : Stops (furtherChars as ++ r) := by
  cases as <;> simp [Stops, furtherChars] <;> decide

/-- Lists of further arguments can be told apart if the arguments can. -/
theorem furtherChars_append_inj {as bs : List Formula} (has : ∀ a ∈ as, Legible a)
    (hbs : ∀ b ∈ bs, b.Named) (h : furtherChars as ++ r = furtherChars bs ++ s) :
    as.map spelled = bs.map spelled ∧ r = s := by
  induction as generalizing bs with
  | nil =>
    cases bs with
    | nil => exact ⟨rfl, by simpa [furtherChars] using h⟩
    | cons b bs => simp [furtherChars] at h
  | cons a as ih =>
    cases bs with
    | nil => simp [furtherChars] at h
    | cons b bs =>
      simp only [furtherChars, List.cons_append, List.cons.injEq, true_and, List.append_assoc] at h
      obtain ⟨hab, hrest⟩ := has a List.mem_cons_self b _ _ (hbs b List.mem_cons_self)
        (stops_furtherChars as r) (stops_furtherChars bs s) h
      obtain ⟨hmap, hrs⟩ := ih (fun c hc => has c (List.mem_cons_of_mem _ hc))
        (fun c hc => hbs c (List.mem_cons_of_mem _ hc)) hrest
      exact ⟨by rw [List.map_cons, List.map_cons, hab, hmap], hrs⟩

theorem head?_cons_isNameChar {c : Char} (hc : isNameChar c = false) (cs : List Char) :
    ∀ d ∈ (c :: cs).head?, isNameChar d = false := by
  intro d hd
  simp only [List.head?_cons, Option.mem_some_iff] at hd
  rw [← hd]; exact hc

theorem head?_argChars (as : List Formula) (hr : Stops r) :
    ∀ c ∈ (argChars as ++ r).head?, isNameChar c = false := by
  intro c hc
  cases as with
  | nil => exact (hr c hc).1
  | cons a as => exact head?_cons_isNameChar rfl _ c hc

/-- Bracketed arguments can be told apart if the arguments can. -/
theorem argChars_append_inj {as bs : List Formula} (has : ∀ a ∈ as, Legible a)
    (hbs : ∀ b ∈ bs, b.Named) (hr : Stops r) (hs : Stops s)
    (h : argChars as ++ r = argChars bs ++ s) : as.map spelled = bs.map spelled ∧ r = s := by
  cases as with
  | nil =>
    cases bs with
    | nil => exact ⟨rfl, h⟩
    | cons b bs =>
      rw [argChars, List.nil_append] at h
      exact absurd rfl (hr '(' (by rw [h]; rfl)).2
  | cons a as =>
    cases bs with
    | nil =>
      rw [argChars.eq_1, List.nil_append] at h
      exact absurd rfl (hs '(' (by rw [← h]; rfl)).2
    | cons b bs =>
      simp only [argChars, List.cons_append, List.cons.injEq, true_and, List.append_assoc] at h
      obtain ⟨hab, hrest⟩ := has a List.mem_cons_self b _ _ (hbs b List.mem_cons_self)
        (stops_furtherChars as r) (stops_furtherChars bs s) h
      obtain ⟨hmap, hrs⟩ := furtherChars_append_inj (fun c hc => has c (List.mem_cons_of_mem _ hc))
        (fun c hc => hbs c (List.mem_cons_of_mem _ hc)) hrest
      exact ⟨by rw [List.map_cons, List.map_cons, hab, hmap], hrs⟩

/-- Texts that start with a name can be told apart if the arguments can. -/
theorem legible_of_symbol (hf : f.Named) (hn : f.head.symbol? = some n)
    (hargs : ∀ a ∈ f.args, Legible a) : Legible f := by
  intro g r s hg hr hs h
  obtain ⟨m, hm⟩ := exists_symbol_of_lead ((lead_eq_of_text hf hg h).symm.trans (lead_eq_name hn))
  rw [toList_text_of_symbol hn, toList_text_of_symbol hm, List.append_assoc, List.append_assoc] at h
  obtain ⟨rfl, hrest⟩ := name_append_inj (hf.isName_head hn) (hg.isName_head hm)
    (head?_argChars _ hr) (head?_argChars _ hs) h
  obtain ⟨hmap, hrs⟩ := argChars_append_inj hargs (fun b hb => hg.of_mem_args hb) hr hs hrest
  rw [spelled_of_symbol hn, spelled_of_symbol hm, hmap]
  exact ⟨rfl, hrs⟩

theorem stops_cons {c : Char} (hc : isNameChar c = false) (hp : c ≠ '(') : Stops (c :: r) := by
  intro d hd
  simp only [List.head?_cons, Option.mem_some_iff] at hd
  rw [← hd]; exact ⟨hc, hp⟩

theorem stops_space : Stops (' ' :: r) := stops_cons rfl (by decide)

theorem stops_rpar : Stops (')' :: r) := stops_cons rfl (by decide)

/-- **A text followed by a stop is the text of one formula only**, up to what texts do not
tell. -/
theorem Named.legible (hf : f.Named) : Legible f := by
  -- the induction carries the arguments along, which are not direct parts
  suffices h : Legible f ∧ ∀ a ∈ f.args, Legible a from h.1
  induction f with
  | var n τ => exact ⟨legible_of_symbol (n := n) hf rfl (by simp [args]), by simp [args]⟩
  | const n τ => exact ⟨legible_of_symbol (n := n) hf rfl (by simp [args]), by simp [args]⟩
  | app f a ihf iha =>
    obtain ⟨hlf, hargs⟩ := ihf hf.app_left
    obtain ⟨hla, -⟩ := iha hf.app_right
    have hall : ∀ b ∈ (app f a).args, Legible b := by
      intro b hb
      rw [args, List.mem_append, List.mem_singleton] at hb
      rcases hb with hb | rfl
      · exact hargs b hb
      · exact hla
    refine ⟨?_, hall⟩
    cases hn : f.head.symbol? with
    | some n => exact legible_of_symbol (n := n) hf hn hall
    | none =>
      intro g r s hg hr hs h
      have hlead : g.lead = .bracket := by
        rw [← lead_eq_of_text hf hg h, lead, if_pos hn]
      rw [toList_text_app hn] at h
      rcases exists_of_lead_bracket hlead with ⟨op, c, d, rfl⟩ | ⟨k, c, rfl, hk⟩
      · rw [toList_text_binary, List.cons.injEq] at h
        obtain ⟨-, htail⟩ := hlf c _ _ hg.binary_left stops_space stops_space h.2
        exact absurd (List.cons.inj htail).2 (text_ne_sign hf.app_right op)
      · rw [toList_text_app hk, List.cons.injEq] at h
        obtain ⟨hfk, htail⟩ := hlf k _ _ hg.app_left stops_space stops_space h.2
        obtain ⟨hac, hrest⟩ := hla c _ _ hg.app_right stops_rpar stops_rpar (List.cons.inj htail).2
        exact ⟨by rw [spelled, spelled, hfk, hac], (List.cons.inj hrest).2⟩
  | not b ih =>
    refine ⟨?_, by simp [args]⟩
    intro g r s hg hr hs h
    have hlead : g.lead = .not := (lead_eq_of_text hf hg h).symm
    cases g with
    | not c =>
      rw [toList_text_not, toList_text_not, List.cons.injEq] at h
      obtain ⟨hbc, hrs⟩ := (ih hf.not_body).1 c r s hg.not_body hr hs h.2
      exact ⟨by rw [spelled, spelled, hbc], hrs⟩
    | app k c => rw [lead] at hlead; split at hlead <;> cases hlead
    | _ => cases hlead
  | binary op a b iha ihb =>
    refine ⟨?_, by simp [args]⟩
    intro g r s hg hr hs h
    have hlead : g.lead = .bracket := (lead_eq_of_text hf hg h).symm
    have hla := (iha hf.binary_left).1
    rw [toList_text_binary] at h
    rcases exists_of_lead_bracket hlead with ⟨op', c, d, rfl⟩ | ⟨k, c, rfl, hk⟩
    · rw [toList_text_binary, List.cons.injEq] at h
      obtain ⟨hac, htail⟩ := hla c _ _ hg.binary_left stops_space stops_space h.2
      obtain ⟨rfl, htail'⟩ := Connective.sign_append_inj (List.cons.inj htail).2
      obtain ⟨hbd, hrest⟩ := (ihb hf.binary_right).1 d _ _ hg.binary_right stops_rpar stops_rpar
        (List.cons.inj htail').2
      exact ⟨by rw [spelled, spelled, hac, hbd], (List.cons.inj hrest).2⟩
    · rw [toList_text_app hk, List.cons.injEq] at h
      obtain ⟨-, htail⟩ := hla k _ _ hg.app_left stops_space stops_space h.2
      exact absurd (List.cons.inj htail).2.symm (text_ne_sign hg.app_right op)
  | quant q n τ b ih =>
    refine ⟨?_, by simp [args]⟩
    intro g r s hg hr hs h
    have hlead : g.lead = .quant q := (lead_eq_of_text hf hg h).symm
    cases g with
    | quant q' m σ c =>
      rw [toList_text_quant, toList_text_quant] at h
      obtain ⟨rfl, hname⟩ := Quantifier.sign_append_inj h
      obtain ⟨rfl, htype⟩ := name_append_inj (hf.binders n List.mem_cons_self)
        (hg.binders m List.mem_cons_self) (head?_cons_isNameChar rfl _)
        (head?_cons_isNameChar rfl _) hname
      obtain ⟨rfl, hbody⟩ := Ty.text_append_inj (List.cons.inj htype).2
      simp only [List.cons.injEq, true_and] at hbody
      obtain ⟨hbc, hrest⟩ := (ih hf.quant_body).1 c _ _ hg.quant_body stops_rpar stops_rpar hbody
      exact ⟨by rw [spelled, spelled, hbc], (List.cons.inj hrest).2⟩
    | app k c => rw [lead] at hlead; split at hlead <;> cases hlead
    | _ => cases hlead

/-! ## Where names tell variables from constants -/

/-- The formula with the types of its variables and constants forgotten; quantifiers keep theirs. -/
def bare : Formula → Formula
  | .var n _ => .var n .individual
  | .const n _ => .const n .individual
  | .app f a => .app f.bare a.bare
  | .not b => .not b.bare
  | .binary op a b => .binary op a.bare b.bare
  | .quant q n τ b => .quant q n τ b.bare

/-- The formula with variables for the constants that have certain names. -/
def marked (V : String → Prop) [DecidablePred V] : Formula → Formula
  | .var n τ => .var n τ
  | .const n τ => if V n then .var n τ else .const n τ
  | .app f a => .app (f.marked V) (a.marked V)
  | .not b => .not (b.marked V)
  | .binary op a b => .binary op (a.marked V) (b.marked V)
  | .quant q n τ b => .quant q n τ (b.marked V)

theorem spelled_bare (f : Formula) : f.bare.spelled = f.spelled := by
  induction f with
  | app f a ihf iha => rw [bare, spelled, spelled, ihf, iha]
  | not b ih => rw [bare, spelled, spelled, ih]
  | binary op a b iha ihb => rw [bare, spelled, spelled, iha, ihb]
  | quant q n τ b ih => rw [bare, spelled, spelled, ih]
  | _ => rfl

theorem untyped_bare (f : Formula) : f.bare.untyped = f.untyped := by
  induction f with
  | app f a ihf iha => rw [bare, untyped, untyped, ihf, iha]
  | not b ih => rw [bare, untyped, untyped, ih]
  | binary op a b iha ihb => rw [bare, untyped, untyped, iha, ihb]
  | quant q n τ b ih => rw [bare, untyped, untyped, ih]
  | _ => rfl

/-- If it is known which names are those of variables, a spelling tells all but types. -/
theorem marked_spelled {V : String → Prop} [DecidablePred V] (hv : ∀ n ∈ f.varNames, V n)
    (hc : ∀ n ∈ f.constants, ¬ V n) : f.spelled.marked V = f.bare := by
  induction f with
  | var n τ => rw [spelled, marked, if_pos (hv n List.mem_cons_self), bare]
  | const n τ => rw [spelled, marked, if_neg (hc n List.mem_cons_self), bare]
  | app f a ihf iha =>
    simp only [varNames, constants, List.forall_mem_append] at hv hc
    rw [spelled, marked, ihf hv.1 hc.1, iha hv.2 hc.2, bare]
  | not b ih => rw [spelled, marked, ih hv hc, bare]
  | binary op a b iha ihb =>
    simp only [varNames, constants, List.forall_mem_append] at hv hc
    rw [spelled, marked, iha hv.1 hc.1, ihb hv.2 hc.2, bare]
  | quant q n τ b ih => rw [spelled, marked, ih hv hc, bare]

/-- **Where names tell variables from constants, formulas that are spelled alike are equal up to the
types of their symbols.** -/
theorem spelled_eq_iff {V : String → Prop} (hfv : ∀ n ∈ f.varNames, V n)
    (hfc : ∀ n ∈ f.constants, ¬ V n) (hgv : ∀ n ∈ g.varNames, V n)
    (hgc : ∀ n ∈ g.constants, ¬ V n) : f.spelled = g.spelled ↔ f.bare = g.bare := by
  classical
  constructor
  · intro h
    rw [← marked_spelled hfv hfc, h, marked_spelled hgv hgc]
  · intro h
    rw [← spelled_bare f, h, spelled_bare]

/-- So they are equal up to types. -/
theorem untyped_eq_of_spelled_eq {V : String → Prop} (hfv : ∀ n ∈ f.varNames, V n)
    (hfc : ∀ n ∈ f.constants, ¬ V n) (hgv : ∀ n ∈ g.varNames, V n)
    (hgc : ∀ n ∈ g.constants, ¬ V n) (h : f.spelled = g.spelled) : f.untyped = g.untyped := by
  rw [← untyped_bare f, (spelled_eq_iff hfv hfc hgv hgc).1 h, untyped_bare]

end Formula

end Refutation
