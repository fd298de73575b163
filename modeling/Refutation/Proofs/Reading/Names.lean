import Refutation.Proofs.Formula.Readable
import Refutation.Reading.Parser

/-!
# The names of a formula that was read

A reader makes up no names: what it has read so far has the names of the lexemes read
(`Reader.mem_names_step`, `mem_names_readPhrase`). The lexemes of a text are names in
the sense of `isName` (`isName_of_mem_scanFrom`), and the signature tells variables from
constants by name alone. So a formula that was read can be told by its text up to types.

* `parse_eq_ok_iff`: a text is split, its lexemes are read, and names are resolved.
* `declared_of_parse`: **a formula that was read is made of what the signature declares.**
* `resolved_of_parse`: **the names of a formula that was read are names, and the signature
  tells which of them are variables.**
-/

namespace Refutation

/-- Whether the signature has a variable of this name. -/
def Signature.isVariable (n : String) : Bool :=
  match symbol n with
  | .var _ _ => true
  | _ => false

/-- All names are names of the reader, and the signature tells variables from constants. -/
structure Formula.Resolved (f : Formula) : Prop where
  named : f.Named
  varNames : ∀ n ∈ f.varNames, Signature.isVariable n = true
  constants : ∀ n ∈ f.constants, Signature.isVariable n = false

namespace Formula

variable {f a b : Formula}

theorem Resolved.app (hf : f.Resolved) (ha : a.Resolved) : (app f a).Resolved :=
  ⟨⟨List.forall_mem_append.2 ⟨hf.named.constants, ha.named.constants⟩,
    List.forall_mem_append.2 ⟨hf.named.varNames, ha.named.varNames⟩,
    List.forall_mem_append.2 ⟨hf.named.binders, ha.named.binders⟩⟩,
    List.forall_mem_append.2 ⟨hf.varNames, ha.varNames⟩,
    List.forall_mem_append.2 ⟨hf.constants, ha.constants⟩⟩

theorem Resolved.not (hb : b.Resolved) : (not b).Resolved :=
  ⟨⟨hb.named.constants, hb.named.varNames, hb.named.binders⟩, hb.varNames, hb.constants⟩

theorem Resolved.binary (op : Connective) (ha : a.Resolved) (hb : b.Resolved) :
    (binary op a b).Resolved := by
  obtain ⟨⟨hc, hv, hbd⟩, hv', hc'⟩ := ha.app hb
  exact ⟨⟨hc, hv, hbd⟩, hv', hc'⟩

theorem Resolved.quant (q : Quantifier) {x : String} (τ : Ty) (hx : Reading.isName x)
    (hb : b.Resolved) : (quant q x τ b).Resolved :=
  ⟨⟨hb.named.constants, hb.named.varNames, List.forall_mem_cons.2 ⟨hx, hb.named.binders⟩⟩,
    hb.varNames, hb.constants⟩

end Formula

/-- Only single letters are variables. -/
theorem Signature.length_of_isVariable {n : String} (h : isVariable n) : n.toList.length = 1 := by
  unfold isVariable symbol at h
  split at h
  · rename_i m τ hm
    split at hm
    · cases hm
    · rename_i c hc
      rw [hc]; rfl
    · split at hm <;> cases hm
    · cases hm
  · cases h

theorem Signature.symbol_eq (n : String) :
    ∃ τ, symbol n = if isVariable n then .var n τ else .const n τ := by
  unfold isVariable
  have h : (∃ τ, symbol n = .var n τ) ∨ ∃ τ, symbol n = .const n τ := by
    unfold symbol
    split
    · exact Or.inr ⟨_, rfl⟩
    · split
      · exact Or.inl ⟨_, rfl⟩
      · split <;> exact Or.inr ⟨_, rfl⟩
    · split <;> exact Or.inr ⟨_, rfl⟩
    · exact Or.inr ⟨_, rfl⟩
  rcases h with ⟨τ, hτ⟩ | ⟨τ, hτ⟩
  · exact ⟨τ, by rw [hτ]; rfl⟩
  · exact ⟨τ, by rw [hτ]; rfl⟩

namespace Formula

/-- Symbols are what the signature makes of their names, names are names of the reader, and
bound variables have a type that can be named. -/
def Declared : Formula → Prop
  | .var n τ => Reading.isName n ∧ Signature.symbol n = .var n τ
  | .const n τ => Reading.isName n ∧ Signature.symbol n = .const n τ
  | .app f a => f.Declared ∧ a.Declared
  | .not b => b.Declared
  | .binary _ a b => a.Declared ∧ b.Declared
  | .quant _ x τ b => Reading.isName x ∧ (τ = .individual ∨ τ = .truth) ∧ b.Declared

theorem Declared.resolved {f : Formula} (h : f.Declared) : f.Resolved := by
  induction f with
  | var n τ =>
    have hv : Signature.isVariable n = true := by rw [Signature.isVariable, h.2]
    exact ⟨⟨by simp [Formula.constants], by simpa [Formula.varNames] using h.1,
      by simp [Formula.binders]⟩, by simpa [Formula.varNames] using hv,
      by simp [Formula.constants]⟩
  | const n τ =>
    have hv : Signature.isVariable n = false := by rw [Signature.isVariable, h.2]
    exact ⟨⟨by simpa [Formula.constants] using h.1, by simp [Formula.varNames],
      by simp [Formula.binders]⟩, by simp [Formula.varNames],
      by simpa [Formula.constants] using hv⟩
  | app f a ihf iha => exact (ihf h.1).app (iha h.2)
  | not b ih => exact (ih h).not
  | binary op a b iha ihb => exact (iha h.1).binary op (ihb h.2)
  | quant q x τ b ih => exact (ih h.2.2).quant q τ h.1

end Formula

namespace Reading

/-- The names in a phrase, those of binders included. -/
def Phrase.names : Phrase → List String
  | .name s => [s]
  | .app f a => f.names ++ a.names
  | .not b => b.names
  | .binary _ l r => l.names ++ r.names
  | .quant _ x _ b => x :: b.names

/-- The names in a frame. -/
def Frame.names : Frame → List String
  | .right _ l => l.names
  | .body _ x _ => [x]
  | .argument f => f.names
  | _ => []

/-- The names in a cursor. -/
def Cursor.names : Cursor → List String
  | .bound _ x => [x]
  | .colon _ x => [x]
  | .annotated _ x _ => [x]
  | .after p => p.names
  | _ => []

/-- The names a reader has read, those of types apart. -/
def Reader.names (r : Reader) : List String :=
  r.cursor.names ++ r.frames.flatMap Frame.names

/-- The name a lexeme stands for. -/
def Lexeme.names : Lexeme → List String
  | .name s => [s]
  | _ => []

/-! ## Reading makes up no names -/

theorem Frame.mem_names_fill {f : Frame} {p : Phrase} {n : String} :
    n ∈ (f.fill p).names ↔ n ∈ f.names ∨ n ∈ p.names := by
  cases f <;> simp [Frame.fill, Frame.names, Phrase.names]

/-- Filling frames keeps the names. -/
theorem mem_names_settle (done : Frame → Bool) (p : Phrase) (fs : List Frame) {n : String} :
    n ∈ (settle done p fs).1.names ++ (settle done p fs).2.flatMap Frame.names ↔
      n ∈ p.names ++ fs.flatMap Frame.names := by
  induction fs generalizing p with
  | nil => rfl
  | cons f fs ih =>
    unfold settle
    split
    · rw [ih]
      simp only [List.mem_append, Frame.mem_names_fill, List.flatMap_cons]
      rw [or_comm (a := n ∈ f.names), or_assoc]
    · rfl

theorem mem_names_close {p q : Phrase} {fs gs : List Frame} {n : String}
    (h : Reader.close p fs = (q, gs)) (hn : n ∈ q.names ++ gs.flatMap Frame.names) :
    n ∈ p.names ++ fs.flatMap Frame.names := by
  rw [← mem_names_settle (fun f => !f.isBracket)]
  unfold Reader.close at h
  rw [h]; exact hn

namespace Reader

/-- A step adds the name of the lexeme at most. -/
theorem mem_names_step {r r' : Reader} {l : Lexeme} {n : String} (h : r.step l = some r')
    (hn : n ∈ r'.names) : n ∈ r.names ∨ n ∈ l.names := by
  obtain ⟨c, fs⟩ := r
  unfold step at h
  simp only at h
  split at h
  case h_14 p =>
    -- an equality, which may not follow another one
    split at h
    · cases h
    · cases h
      left
      simpa [names, Cursor.names, Frame.names] using hn
  case h_15 p op _ =>
    cases h
    left
    exact (mem_names_settle (·.endsBefore op) p fs).1 hn
  case h_16 p =>
    left
    split at h
    · rename_i q gs hc
      cases h
      exact mem_names_close hc (by simpa [names, Cursor.names, Frame.names] using hn)
    · rename_i q f gs hc
      cases h
      refine mem_names_close hc ?_
      simp only [names, Cursor.names, Frame.names, Phrase.names, List.flatMap_cons,
        List.mem_append] at hn ⊢
      grind
    · cases h
  case h_17 p =>
    left
    split at h
    · rename_i q f gs hc
      cases h
      refine mem_names_close hc ?_
      simp only [names, Cursor.names, Frame.names, Phrase.names, List.flatMap_cons,
        List.mem_append] at hn ⊢
      grind
    · cases h
  case h_18 => cases h
  all_goals
    cases h
    simp only [names, Cursor.names, Frame.names, Phrase.names, Lexeme.names, List.flatMap_cons,
      List.mem_append] at hn ⊢
    grind

theorem mem_names_feed {r r' : Reader} {ls : List Lexeme} {n : String} (h : r.feed ls = .ok r')
    (hn : n ∈ r'.names) : n ∈ r.names ∨ n ∈ ls.flatMap Lexeme.names := by
  induction ls generalizing r with
  | nil => cases h; exact Or.inl hn
  | cons l ls ih =>
    unfold feed at h
    split at h
    · cases h
    · rename_i r₁ hstep
      split at h
      · rename_i r₂ hfeed
        cases h
        rw [List.flatMap_cons, List.mem_append]
        rcases ih hfeed with hr | hls
        · exact (mem_names_step hstep hr).imp_right Or.inl
        · exact Or.inr (Or.inr hls)
      · cases h

end Reader

/-- The names of a phrase are names of the lexemes it was read from. -/
theorem mem_names_readPhrase {ls : List Lexeme} {p : Phrase} {n : String}
    (h : readPhrase ls = .ok p) (hn : n ∈ p.names) : n ∈ ls.flatMap Lexeme.names := by
  unfold readPhrase at h
  split at h
  · cases h
  · rename_i r hfeed
    split at h
    · rename_i q hfin
      cases h
      have hr : n ∈ r.names := by
        unfold Reader.finish? at hfin
        split at hfin
        · rename_i p' hcur
          split at hfin
          · rename_i q' hc
            cases hfin
            have := mem_names_close hc (by simpa using hn)
            rw [Reader.names, hcur]
            exact this
          · cases hfin
        · cases hfin
      refine (Reader.mem_names_feed hfeed hr).resolve_left ?_
      simp [Reader.start, Reader.names, Cursor.names]
    · cases h

/-! ## What is read from a text -/

theorem isName_of_lexemeAt? {cs : List Char} {l : Lexeme} {width : Nat} {n : String}
    (h : lexemeAt? cs = some (l, width)) (hn : n ∈ l.names) : isName n := by
  unfold lexemeAt? at h
  split at h
  · cases h
  · cases h; cases hn
  · rename_i c cs _
    split at h
    · rename_i hstart
      cases h
      rw [Lexeme.names, List.mem_singleton] at hn
      rw [hn, isName_iff]
      refine ⟨c, cs.takeWhile isNameChar, by simp, hstart, ?_⟩
      exact fun d hd => List.all_eq_true.1 List.all_takeWhile d hd
    · obtain ⟨l', hl', he⟩ := Option.map_eq_some_iff.1 h
      cases he
      unfold signOf? at hl'
      split at hl' <;> cases hl' <;> cases hn

/-- The names among the tokens of a text are names. -/
theorem isName_of_mem_scanFrom {k : Nat} {p : Position} {cs : List Char} {t : Token} {n : String}
    (ht : t ∈ (scanFrom k p cs).tokens) (hn : n ∈ t.lexeme.names) : isName n := by
  induction cs generalizing k p with
  | nil => simp [scanFrom] at ht
  | cons c cs ih =>
    unfold scanFrom at ht
    split at ht
    · exact ih ht
    · split at ht
      · exact ih ht
      · split at ht
        · cases ht
        · rename_i l width hl
          simp only [Scan.cons, List.mem_cons] at ht
          rcases ht with rfl | ht
          · exact isName_of_lexemeAt? hl hn
          · exact ih ht

/-- A computation in two stages succeeds iff both stages do. -/
theorem bind_eq_ok_iff {ε α β : Type} {x : Except ε α} {k : α → Except ε β} {b : β} :
    (x >>= k) = .ok b ↔ ∃ a, x = .ok a ∧ k a = .ok b := by
  cases x with
  | error e => exact ⟨fun h => (by cases h), fun ⟨_, h, _⟩ => (by cases h)⟩
  | ok a => exact ⟨fun h => ⟨a, rfl, h⟩, fun ⟨_, h, hk⟩ => by cases h; exact hk⟩

theorem mapError_eq_ok_iff {ε ε' α : Type} {x : Except ε α} {k : ε → ε'} {b : α} :
    x.mapError k = .ok b ↔ x = .ok b := by
  cases x with
  | error e =>
    have he : (Except.error e).mapError k = (.error (k e) : Except ε' α) := rfl
    rw [he]
    simp
  | ok a =>
    have ha : (Except.ok a).mapError k = (.ok a : Except ε' α) := rfl
    rw [ha]
    simp

theorem declared_symbol {n : String} (hn : isName n) : (Signature.symbol n).Declared := by
  obtain ⟨τ, hτ⟩ := Signature.symbol_eq n
  split at hτ <;> rw [hτ] <;> exact ⟨hn, hτ⟩

theorem eq_of_type_eq_ok {a : Option String} {τ : Ty} (h : Signature.type a = .ok τ) :
    τ = .individual ∨ τ = .truth := by
  unfold Signature.type at h
  split at h <;> cases h <;> simp

/-- What a phrase with proper names stands for is declared. -/
theorem Phrase.declared_of_resolve {p : Phrase} {f : Formula} (h : p.resolve = .ok f)
    (hp : ∀ n ∈ p.names, isName n) : f.Declared := by
  induction p generalizing f with
  | name s => cases h; exact declared_symbol (hp s List.mem_cons_self)
  | app k a ihk iha =>
    rw [names, List.forall_mem_append] at hp
    simp only [resolve, bind_eq_ok_iff] at h
    obtain ⟨fn, hk, arg, ha, h⟩ := h
    cases h
    exact ⟨ihk hk hp.1, iha ha hp.2⟩
  | not b ih =>
    simp only [resolve, bind_eq_ok_iff] at h
    obtain ⟨body, hb, h⟩ := h
    cases h
    have hbody : body.Declared := ih hb hp
    exact hbody
  | binary op l r ihl ihr =>
    rw [names, List.forall_mem_append] at hp
    simp only [resolve, bind_eq_ok_iff] at h
    obtain ⟨left, hl, right, hr, h⟩ := h
    cases h
    exact ⟨ihl hl hp.1, ihr hr hp.2⟩
  | quant q x a b ih =>
    rw [names, List.forall_mem_cons] at hp
    simp only [resolve, bind_eq_ok_iff] at h
    obtain ⟨body, hb, τ, hτ, h⟩ := h
    cases h
    exact ⟨hp.1, eq_of_type_eq_ok hτ, ih hb hp.2⟩

/-- The formula of a text is that of the phrase its lexemes make up. -/
theorem parse_eq_ok_iff {text : String} {f : Formula} : parse text = .ok f ↔
    Text.blankText text = false ∧ (scan text).stuck = none ∧
      ∃ p, readPhrase ((scan text).tokens.map Token.lexeme) = .ok p ∧ p.resolve = .ok f := by
  unfold parse Scan.phrase
  cases Text.blankText text with
  | true => simp
  | false =>
    cases readPhrase ((scan text).tokens.map Token.lexeme) with
    | error n => simp
    | ok p =>
      cases (scan text).stuck with
      | some c => simp
      | none => simp [mapError_eq_ok_iff]

/-- **A formula that was read is made of what the signature declares.** -/
theorem declared_of_parse {text : String} {f : Formula} (h : parse text = .ok f) :
    f.Declared := by
  obtain ⟨-, -, p, hp, hres⟩ := parse_eq_ok_iff.1 h
  refine Phrase.declared_of_resolve hres fun n hn => ?_
  obtain ⟨l, hl, hnl⟩ := List.mem_flatMap.1 (mem_names_readPhrase hp hn)
  obtain ⟨t, ht, rfl⟩ := List.mem_map.1 hl
  exact isName_of_mem_scanFrom ht hnl

/-- **The names of a formula that was read are names, and the signature tells which of them
are variables.** -/
theorem resolved_of_parse {text : String} {f : Formula} (h : parse text = .ok f) :
    f.Resolved :=
  (declared_of_parse h).resolved

end Reading

end Refutation
