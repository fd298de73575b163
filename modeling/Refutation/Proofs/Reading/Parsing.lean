import Refutation.Proofs.Reading.Scope
import Refutation.Proofs.Reading.Tokens
import Refutation.Proofs.Reading.Viability

/-!
# Parsing and the grammar

What `parse` does with a text, told by its tokens (`Lexes`) and by the grammar (`Derives`)
alone. The tokens of a formula have one derivation in which every body goes farthest; the
formula of this derivation is returned, unless an annotation in it names no type. A fault of
writing is reported at the first token with which no formula can go on.

* `parse_iff_derives`: **a text is parsed iff its tokens are derived from the grammar and all
  annotations name types.**
* `accurate_of_parse_eq_error`: **faults are where they are reported.**
-/

namespace Refutation.Reading

variable {text : String} {ls : List Lexeme} {t t' : Derivation}

/-! ## Derivations of the same lexemes -/

/-- The names behind a colon. -/
def typeNames : List Lexeme → List String
  | .colon :: .name a :: ls => a :: typeNames ls
  | _ :: ls => typeNames ls
  | [] => []

theorem mem_typeNames_append (t : Derivation) (x : List Lexeme) {a : String} :
    a ∈ typeNames (t.lexemes ++ x) ↔ a ∈ t.annotations ∨ a ∈ typeNames x := by
  induction t generalizing x with
  | symbol s => simp [Derivation.lexemes, Derivation.annotations, typeNames]
  | group t ih => simp [Derivation.lexemes, Derivation.annotations, typeNames, ih]
  | apply f b ihf ihb => simp [Derivation.lexemes, Derivation.annotations, ihf, ihb, or_assoc]
  | applyMany f b m ihf ihb ihm =>
    simp [Derivation.lexemes, Derivation.annotations, typeNames, ihf, ihb, ihm, or_assoc]
  | argument b ih =>
    simp [Derivation.lexemes, Derivation.annotations, typeNames, ih]
  | arguments b m ihb ihm =>
    simp [Derivation.lexemes, Derivation.annotations, typeNames, ihb, ihm, or_assoc]
  | not b ih => simp [Derivation.lexemes, Derivation.annotations, typeNames, ih]
  | binary op l r ihl ihr =>
    simp [Derivation.lexemes, Derivation.annotations, typeNames, ihl, ihr, or_assoc]
  | quant q y s b ih =>
    cases s with
    | none =>
      simp [Derivation.lexemes, Derivation.annotations, annotationLexemes, typeNames, ih]
    | some s =>
      simp [Derivation.lexemes, Derivation.annotations, annotationLexemes, typeNames, ih,
        or_assoc, or_left_comm]

/-- The annotations are told by the lexemes, up to their order. -/
theorem mem_annotations_of_lexemes_eq (he : t.lexemes = t'.lexemes) {a : String}
    (h : a ∈ t.annotations) : a ∈ t'.annotations := by
  have hmem := (mem_typeNames_append t []).2 (Or.inl h)
  rw [he] at hmem
  simpa [typeNames] using (mem_typeNames_append t' []).1 hmem

/-- The names among the lexemes of a text are names. -/
theorem isName_of_mem_scan (text : String) :
    ∀ l ∈ (scan text).tokens.map Token.lexeme, ∀ s ∈ l.names, isName s := by
  intro l hl s hs
  obtain ⟨t, ht, rfl⟩ := List.mem_map.1 hl
  exact isName_of_mem_scanFrom ht hs

theorem isName_of_lexes (h : Lexes text.toList ls []) : ∀ l ∈ ls, ∀ s ∈ l.names, isName s := by
  rw [← (lexes_iff.1 h).1]
  exact isName_of_mem_scan text

/-- The lexemes of a formula have a greedy derivation. -/
theorem exists_greedy (h : Lexes text.toList ls []) (hd : Derivable ls) :
    ∃ t, Derives .start t ∧ t.greedy = true ∧ t.lexemes = ls := by
  have hnames := isName_of_lexes h
  obtain ⟨p, hp⟩ := (derivable_iff hnames).1 hd
  obtain ⟨t, ht, hg, he, -⟩ := exists_derivation_of_readPhrase hnames hp
  exact ⟨t, ht, hg, he⟩

/-! ## What is parsed -/

/-- The outcome of parsing is that of the greedy derivation. -/
theorem parse_eq_outcome (hblank : Text.blankText text = false)
    (h : Lexes text.toList t.lexemes []) (ht : Derives .start t) (hg : t.greedy = true) :
    parse text = (outcome t.annotations t.formula).mapError .unknownType := by
  obtain ⟨htokens, hstuck⟩ := lexes_iff.1 h
  have hread : readPhrase t.lexemes = .ok t.phrase :=
    (readPhrase_eq_ok_iff (isName_of_lexes h)).2 ⟨t, ht, hg, rfl, rfl⟩
  have hphrase : (scan text).phrase text = .ok t.phrase := by
    rw [Scan.phrase, htokens, hread, hstuck]
  simp only [parse, hblank, Bool.false_eq_true, if_false, hphrase]
  rw [Derivation.resolve_phrase ht]

theorem parse_of_forall_isTypeName (hblank : Text.blankText text = false)
    (h : Lexes text.toList t.lexemes []) (ht : Derives .start t) (hg : t.greedy = true)
    (ha : ∀ a ∈ t.annotations, isTypeName a) : parse text = .ok t.formula := by
  rw [parse_eq_outcome hblank h ht hg, outcome_of_forall ha]
  rfl

theorem parse_of_find? (hblank : Text.blankText text = false)
    (h : Lexes text.toList t.lexemes []) (ht : Derives .start t) (hg : t.greedy = true)
    {a : String} (ha : t.annotations.find? (!isTypeName ·) = some a) :
    parse text = .error (.unknownType ⟨a⟩) := by
  rw [parse_eq_outcome hblank h ht hg, outcome_of_find? ha]
  rfl

/-- What was parsed, or refused for its annotations only, has a greedy derivation. -/
theorem exists_greedy_of_phrase {p : Phrase} (h : (scan text).phrase text = .ok p) :
    ∃ t, Derives .start t ∧ t.greedy = true ∧ Lexes text.toList t.lexemes [] ∧ t.phrase = p := by
  unfold Scan.phrase at h
  split at h
  · cases h
  · rename_i q hread
    split at h
    · cases h
    · rename_i hstuck
      cases h
      obtain ⟨t, ht, hg, he, hp⟩ := exists_derivation_of_readPhrase (isName_of_mem_scan text) hread
      exact ⟨t, ht, hg, lexes_iff.2 ⟨he.symm, hstuck⟩, hp⟩

/-- **A text is parsed iff its tokens are derived from the grammar and all annotations name
types.** Among the derivations of its tokens there is one in which every body goes farthest.
Its formula is returned, or else the first of its annotations that names no type. -/
theorem parse_iff_derives (hblank : Text.blankText text = false) :
    ((∃ f, parse text = .ok f) ↔ ∃ t, Derives .start t ∧ Lexes text.toList t.lexemes [] ∧
      ∀ a ∈ t.annotations, isTypeName a) ∧
    ∀ ls, Lexes text.toList ls [] → Derivable ls →
      ∃ t, Derives .start t ∧ t.lexemes = ls ∧ t.Farthest ∧
        (∀ t', Derives .start t' → t'.lexemes = ls → t'.Farthest → t' = t) ∧
        ((∀ a ∈ t.annotations, isTypeName a) → parse text = .ok t.formula) ∧
        ∀ a, t.annotations.find? (!isTypeName ·) = some a →
          parse text = .error (.unknownType ⟨a⟩) := by
  refine ⟨⟨?_, ?_⟩, ?_⟩
  · rintro ⟨f, hf⟩
    obtain ⟨-, hstuck, p, hread, -⟩ := parse_eq_ok_iff.1 hf
    have hphrase : (scan text).phrase text = .ok p := by rw [Scan.phrase, hread, hstuck]
    obtain ⟨t, ht, hg, hlexes, -⟩ := exists_greedy_of_phrase hphrase
    refine ⟨t, ht, hlexes, fun a ha => ?_⟩
    -- an annotation that names no type would have been reported
    cases hfind : t.annotations.find? (!isTypeName ·) with
    | none => simpa using List.find?_eq_none.1 hfind a ha
    | some b =>
      rw [parse_of_find? hblank hlexes ht hg hfind] at hf
      cases hf
  · -- the greedy derivation may be another one, but it has the same annotations
    rintro ⟨t, ht, hlexes, ha⟩
    obtain ⟨t₀, ht₀, hg₀, he⟩ := exists_greedy hlexes ⟨t, ht, rfl⟩
    have ha₀ : ∀ a ∈ t₀.annotations, isTypeName a := fun a h =>
      ha a (mem_annotations_of_lexemes_eq he h)
    exact ⟨t₀.formula, parse_of_forall_isTypeName hblank (he ▸ hlexes) ht₀ hg₀ ha₀⟩
  · intro ls hlexes hd
    obtain ⟨t, ht, hg, rfl⟩ := exists_greedy hlexes hd
    refine ⟨t, ht, rfl, ht.farthest_of_greedy hg, fun t' ht' he hf => ?_,
      parse_of_forall_isTypeName hblank hlexes ht hg,
      fun a => parse_of_find? hblank hlexes ht hg⟩
    have hg' := ht'.greedy_of_farthest ht hg he.symm hf
    exact ht'.eq_of_lexemes_eq ht hg' hg he

/-- The body may end before the connective or go on over it, and it goes on. -/
theorem parse_iff_derives_body_over_connective : Text.blankText "∀x:o. A ∧ B" = false ∧
    parse "∀x:o. A ∧ B" = .ok (.quant .all "x" .truth
      (.binary .and (.const "A" .truth) (.const "B" .truth))) := by
  have hblank : Text.blankText "∀x:o. A ∧ B" = false := by decide
  let d : Derivation := .quant .all "x" (some "o") (.binary .and (.symbol "A") (.symbol "B"))
  have hatom : ∀ s, isName s → Derives .unary (.symbol s) := fun s hs =>
    .unary (.equality (.application (.symbol hs)))
  have hbody : Derives .implication (.binary .and (.symbol "A") (.symbol "B")) :=
    .implication (.disjunction (.and (hatom "A" (by decide)) (.conjunction (hatom "B" (by decide)))))
  have hd : Derives .start d :=
    .implication (.disjunction (.conjunction (.quantified (.quant (by decide) (by decide) hbody))))
  have hlexes : Lexes "∀x:o. A ∧ B".toList d.lexemes [] := lexes_iff.2 (by decide)
  obtain ⟨t, -, -, -, hunique, hok, -⟩ := (parse_iff_derives hblank).2 d.lexemes hlexes ⟨d, hd, rfl⟩
  obtain rfl : d = t := hunique d hd rfl (hd.farthest_of_greedy rfl)
  exact ⟨hblank, hok (by decide)⟩

/-! ## What is reported -/

/-- Behind the tokens `ls` of a text and the spaces among them, `rest` starts at the place
`p`. -/
def Located (text : String) (p : Position) (ls : List Lexeme) (rest : List Char) : Prop :=
  ∃ pre, text.toList = pre ++ rest ∧ Lexes pre ls rest ∧ p = Position.behind pre

/-- What the report of a fault says about the text. -/
def Accurate (text : String) : ParseError → Prop
  | .empty => Text.blankText text = true
  | .unexpected s t => s = text ∧ ∃ ls post,
      Located text t.position ls (t.spelling.toList ++ post) ∧
      Spells t.lexeme t.spelling.toList post ∧ Viable ls ∧ ¬Viable (ls ++ [t.lexeme])
  | .unfinished s p => s = text ∧ ∃ ls l w post,
      Lexes text.toList (ls ++ [l]) [] ∧ Viable (ls ++ [l]) ∧ ¬Derivable (ls ++ [l]) ∧
      Located text p ls (w ++ post) ∧ Spells l w post
  | .unmatched s c p => s = text ∧ ∃ ls post,
      Located text p ls (c :: post) ∧ Viable ls ∧ isSpace c = false ∧ NoToken (c :: post)
  | .unknownType e => ∃ t, Derives .start t ∧ Lexes text.toList t.lexemes [] ∧ t.Farthest ∧
      t.annotations.find? (!isTypeName ·) = some e.name

theorem located_token {n : Nat} {t : Token} (h : (scan text).tokens[n]? = some t) :
    ∃ post, Located text t.position (((scan text).tokens.map Token.lexeme).take n)
      (t.spelling.toList ++ post) ∧ Spells t.lexeme t.spelling.toList post := by
  obtain ⟨pre, post, htext, hlexes, hspells, hp⟩ := (scanned .start text.toList).tokens n t h
  exact ⟨post, ⟨pre, htext, hlexes, hp.trans (foldl_after_start pre)⟩, hspells⟩

theorem located_stuck {c : Char} {p : Position} (h : (scan text).stuck = some (c, p)) :
    ∃ post, Located text p ((scan text).tokens.map Token.lexeme) (c :: post) ∧
      isSpace c = false ∧ NoToken (c :: post) := by
  obtain ⟨pre, post, htext, hlexes, hspace, hno, hp⟩ := (scanned .start text.toList).stuck c p h
  exact ⟨post, ⟨pre, htext, hlexes, hp.trans (foldl_after_start pre)⟩, hspace, hno⟩

/-- A text that is not blank and was split to its end has a last token. -/
theorem exists_last_token (hblank : Text.blankText text = false) (hs : (scan text).stuck = none) :
    ∃ ts t, (scan text).tokens = ts ++ [t] := by
  rcases List.eq_nil_or_concat (scan text).tokens with hnil | ⟨ts, t, ht⟩
  · have hlexes : Lexes text.toList [] [] := lexes_iff.2 ⟨by rw [hnil]; rfl, hs⟩
    rw [Text.blankText, hlexes.all_isBlank] at hblank
    cases hblank
  · exact ⟨ts, t, by rw [ht, List.concat_eq_append]⟩

/-- A text that cannot be read to its end is reported where reading stopped. -/
theorem accurate_fault {n : Nat} (hblank : Text.blankText text = false)
    (h : readPhrase ((scan text).tokens.map Token.lexeme) = .error n) :
    Accurate text ((scan text).fault text n) := by
  obtain ⟨hle, hviable, hnot, hend⟩ := viable_of_readPhrase_eq_error (isName_of_mem_scan text) h
  rw [List.length_map] at hle hend
  unfold Scan.fault
  split
  · rename_i t ht
    obtain ⟨post, hlocated, hspells⟩ := located_token ht
    refine ⟨rfl, _, post, hlocated, hspells, hviable, hnot t.lexeme ?_⟩
    rw [List.getElem?_map, ht, Option.map_some]
  · -- all tokens were read, and then no token starts
    rename_i c p hnone hstuck
    have hn : n = (scan text).tokens.length := Nat.le_antisymm hle (List.getElem?_eq_none_iff.1 hnone)
    obtain ⟨post, hlocated, hspace, hno⟩ := located_stuck hstuck
    rw [List.take_of_length_le (by simp [hn])] at hviable
    exact ⟨rfl, _, post, hlocated, hviable, hspace, hno⟩
  · rename_i hnone hstuck
    have hn : n = (scan text).tokens.length := Nat.le_antisymm hle (List.getElem?_eq_none_iff.1 hnone)
    obtain ⟨ts, t, htokens⟩ := exists_last_token hblank hstuck
    have hlexemes : (scan text).tokens.map Token.lexeme = ts.map Token.lexeme ++ [t.lexeme] := by
      rw [htokens, List.map_append, List.map_singleton]
    have hlast : (scan text).tokens[ts.length]? = some t := by simp [htokens]
    obtain ⟨post, hlocated, hspells⟩ := located_token hlast
    rw [hlexemes, List.take_left' (List.length_map _)] at hlocated
    rw [List.take_of_length_le (by simp [hn]), hlexemes] at hviable
    have hderivable := hend hn
    rw [hlexemes] at hderivable
    have hplace : ((scan text).tokens.getLast?.map Token.position).getD .start = t.position := by
      simp [htokens]
    rw [hplace]
    exact ⟨rfl, _, t.lexeme, t.spelling.toList, post, lexes_iff.2 ⟨hlexemes, hstuck⟩, hviable,
      hderivable, hlocated, hspells⟩

/-- A text that makes up no phrase is reported where reading or splitting stopped, whichever
came first. -/
theorem accurate_of_phrase_eq_error {e : ParseError} (hblank : Text.blankText text = false)
    (h : (scan text).phrase text = .error e) : Accurate text e := by
  unfold Scan.phrase at h
  split at h
  · rename_i n hread
    cases h
    exact accurate_fault hblank hread
  · rename_i p hread
    split at h
    · -- the tokens make up a formula, but the text goes on
      rename_i c q hstuck
      cases h
      obtain ⟨post, hlocated, hspace, hno⟩ := located_stuck hstuck
      have hderivable := (derivable_iff (isName_of_mem_scan text)).2 ⟨p, hread⟩
      exact ⟨rfl, _, post, hlocated, ⟨[], by rwa [List.append_nil]⟩, hspace, hno⟩
    · cases h

/-- What makes up a phrase is refused only for an annotation. -/
theorem accurate_of_resolve_eq_error {e : ParseError} {p : Phrase}
    (hphrase : (scan text).phrase text = .ok p)
    (h : p.resolve.mapError .unknownType = .error e) : Accurate text e := by
  obtain ⟨t, ht, hg, hlexes, rfl⟩ := exists_greedy_of_phrase hphrase
  rw [Derivation.resolve_phrase ht] at h
  cases hfind : t.annotations.find? (!isTypeName ·) with
  | none =>
    rw [outcome_of_forall (by simpa using hfind)] at h
    cases h
  | some a =>
    rw [outcome_of_find? hfind] at h
    cases h
    exact ⟨t, ht, hlexes, ht.farthest_of_greedy hg, hfind⟩

/-- **Faults are where they are reported.** The tokens before an unexpected token can be
completed to a formula, and with it they cannot; at the end of the text all tokens can be
completed, but they are no formula, and the place is that of the last token; at a character
that is reported no token starts, and the tokens before it can be completed. -/
theorem accurate_of_parse_eq_error {e : ParseError} (h : parse text = .error e) :
    Accurate text e := by
  unfold parse at h
  split at h
  · rename_i hblank
    cases h
    exact hblank
  · rename_i hblank
    rw [Bool.not_eq_true] at hblank
    split at h
    · rename_i e' hphrase
      cases h
      exact accurate_of_phrase_eq_error hblank hphrase
    · rename_i p hphrase
      exact accurate_of_resolve_eq_error hphrase h

/-- A second equality is reported although no token starts at a later character; a bracket
that is left open is reported at the last token; a lone dash starts no token. -/
theorem accurate_of_parse_eq_error_each_fault :
    (parse "x = y\n  = z @" = .error (.unexpected "x = y\n  = z @" ⟨.binary .eq, "=", ⟨2, 3⟩⟩) ∧
      Accurate "x = y\n  = z @" (.unexpected "x = y\n  = z @" ⟨.binary .eq, "=", ⟨2, 3⟩⟩)) ∧
    (parse "(∀x:i. P(x)\n " = .error (.unfinished "(∀x:i. P(x)\n " ⟨1, 11⟩) ∧
      Accurate "(∀x:i. P(x)\n " (.unfinished "(∀x:i. P(x)\n " ⟨1, 11⟩)) ∧
    (parse "A ∧\n -B" = .error (.unmatched "A ∧\n -B" '-' ⟨2, 2⟩) ∧
      Accurate "A ∧\n -B" (.unmatched "A ∧\n -B" '-' ⟨2, 2⟩)) := by
  refine ⟨⟨by decide, ?_⟩, ⟨by decide, ?_⟩, ⟨by decide, ?_⟩⟩
  · exact accurate_of_parse_eq_error (by decide)
  · exact accurate_of_parse_eq_error (by decide)
  · exact accurate_of_parse_eq_error (by decide)

end Refutation.Reading
