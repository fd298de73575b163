import Refutation.Proofs.Reading.Parsing

/-!
# Spelling and spacing

The same tokens can be written in many ways: an operator has two signs, and any spaces may stand
around tokens, where two names need one between them. `LaidOut ls cs` says that the characters are
one of these ways to write the lexemes `ls`. Splitting finds the lexemes of a text however it is
laid out (`laidOut_iff`), and reading sees nothing else, so what it comes to can be told by counting
tokens, without spellings and places (`Answer`).

* `laidOut_iff`: **a text is split into the lexemes it is laid out from.**
* `exists_answer`: **lexemes have one answer, whatever text they are written in.**
* `parse_of_laidOut`: the same for two texts.
-/

namespace Refutation.Reading

/-- The characters `w` write the lexeme: they are one of its signs, or the name it is. -/
def Lexeme.WrittenAs (l : Lexeme) (w : List Char) : Prop :=
  w ∈ l.signs ∨ l = .name (String.ofList w) ∧ isName (String.ofList w)

/-- The characters write the lexemes, each in one of its ways, with any number of spaces around
them and at least one between two names. -/
inductive LaidOut : List Lexeme → List Char → Prop
  | nil : LaidOut [] []
  | space {c : Char} {cs : List Char} {ls : List Lexeme} (hc : isSpace c = true)
      (h : LaidOut ls cs) : LaidOut ls (c :: cs)
  | token {l : Lexeme} {w cs : List Char} {ls : List Lexeme} (hw : l.WrittenAs w)
      (hgap : ∀ m n ms, l = .name m → ls = .name n :: ms → ∃ c ∈ cs.head?, isSpace c = true)
      (h : LaidOut ls cs) : LaidOut (l :: ls) (w ++ cs)

variable {l : Lexeme} {ls : List Lexeme} {w cs pre rest : List Char} {c : Char} {text : String}

/-! ## Splitting a text that was laid out -/

theorem isNameChar_of_isSpace (h : isSpace c = true) : isNameChar c = false := by
  simp only [isSpace, Bool.or_eq_true, decide_eq_true_eq] at h
  rcases h with (((rfl | rfl) | rfl) | rfl) | rfl <;> decide

theorem signOf?_plain (h : signOf? c = some l) :
    isNameChar c = false ∧ Text.isBlank c = false ∧ ∀ n, l ≠ .name n := by
  unfold signOf? at h
  split at h <;> cases h <;> exact ⟨by decide, by decide, nofun⟩

/-- How a lexeme starts: with no blank, and with a character of names only if it is one. -/
theorem Lexeme.WrittenAs.exists_head (h : l.WrittenAs w) :
    ∃ c cs, w = c :: cs ∧ Text.isBlank c = false ∧ (isNameChar c = true ↔ ∃ n, l = .name n) := by
  rcases h with h | ⟨rfl, hname⟩
  · rcases mem_signs_iff.1 h with ⟨c, rfl, hc⟩ | ⟨rfl, rfl⟩
    · obtain ⟨hchar, hblank, hl⟩ := signOf?_plain hc
      refine ⟨c, [], rfl, hblank, ?_⟩
      simp [hchar, hl]
    · exact ⟨'-', ['>'], rfl, by decide, by simp; decide⟩
  · obtain ⟨c, cs, hw, hstart, -⟩ := isName_iff.1 hname
    rw [String.toList_ofList] at hw
    refine ⟨c, cs, hw, Formula.isBlank_of_isNameStart hstart, ?_⟩
    simp [isNameChar_of_isNameStart hstart]

/-- What is laid out after a name does not go on with it. -/
theorem LaidOut.isNameChar_head (h : LaidOut ls cs)
    (hgap : ∀ n ms, ls = .name n :: ms → ∃ c ∈ cs.head?, isSpace c = true) (hc : c ∈ cs.head?) :
    isNameChar c = false := by
  cases h with
  | nil => cases hc
  | @space d _ _ hd _ =>
    obtain rfl : d = c := by simpa using hc
    exact isNameChar_of_isSpace hd
  | @token l w ds ms hw _ _ =>
    obtain ⟨d, ws, rfl, -, hd⟩ := hw.exists_head
    obtain rfl : d = c := by simpa using hc
    refine Bool.eq_false_iff.2 fun hchar => ?_
    -- then the lexeme is a name, and a space should have come first
    obtain ⟨n, rfl⟩ := hd.1 hchar
    obtain ⟨e, he, hspace⟩ := hgap n ms rfl
    obtain rfl : d = e := by simpa using he
    rw [isNameChar_of_isSpace hspace] at hchar
    cases hchar

theorem LaidOut.lexes (h : LaidOut ls cs) : Lexes cs ls [] := by
  induction h with
  | nil => exact .nil []
  | space hc _ ih => exact ih.space hc
  | @token l w cs ls hw hgap h ih =>
    refine .token ?_ ih
    rw [List.append_nil]
    rcases hw with hw | ⟨rfl, hname⟩
    · exact Or.inl hw
    · refine Or.inr ⟨rfl, hname, fun c hc => ?_⟩
      exact h.isNameChar_head (fun n ms hls => hgap _ n ms rfl hls) hc

theorem Lexes.laidOut (h : Lexes pre ls rest) (hrest : rest = []) : LaidOut ls pre := by
  induction h with
  | nil => exact .nil
  | space hc _ ih => exact .space hc (ih hrest)
  | @token l w pre rest ls hl _ ih =>
    subst hrest
    rw [List.append_nil] at hl
    refine .token ?_ ?_ (ih rfl)
    · exact hl.imp_right fun h => ⟨h.1, h.2.1⟩
    · rintro m n ms rfl rfl
      -- the next name cannot follow at once, or it would be part of this one
      have hpost : ∀ c ∈ pre.head?, isNameChar c = false := by
        rcases hl with hl | ⟨-, -, hpost⟩
        · cases hl
        · exact hpost
      cases ih rfl with
      | space hc _ => exact ⟨_, rfl, hc⟩
      | @token _ w' ds _ hw' _ _ =>
        obtain ⟨d, ws, rfl, -, hd⟩ := hw'.exists_head
        have hchar := hpost d (by simp)
        rw [hd.2 ⟨n, rfl⟩] at hchar
        cases hchar

/-- **A text is split into the lexemes it is laid out from**, and into no others. -/
theorem laidOut_iff : LaidOut ls text.toList ↔
    (scan text).tokens.map Token.lexeme = ls ∧ (scan text).stuck = none := by
  rw [← lexes_iff]
  exact ⟨LaidOut.lexes, fun h => h.laidOut rfl⟩

/-- A text is blank if it is laid out from no lexemes, and only then. -/
theorem LaidOut.all_isBlank (h : LaidOut ls cs) : cs.all Text.isBlank = ls.isEmpty := by
  induction h with
  | nil => rfl
  | space hc _ ih => rw [List.all_cons, isBlank_of_isSpace hc, ih]; rfl
  | token hw _ _ _ =>
    obtain ⟨c, cs, rfl, hblank, -⟩ := hw.exists_head
    simp [hblank]

/-! ## The places of annotations -/

/-- The type annotations in the order in which they are checked, each with the number of lexemes
before it, where `n` lexemes come before the derivation. -/
def Derivation.annotationsFrom (n : Nat) : Derivation → List (Nat × String)
  | .symbol _ => []
  | .group t => t.annotationsFrom (n + 1)
  | .apply f a => f.annotationsFrom n ++ a.annotationsFrom (n + f.lexemes.length)
  | .applyMany f a m =>
    f.annotationsFrom n ++ (a.annotationsFrom (n + f.lexemes.length + 1) ++
      m.annotationsFrom (n + f.lexemes.length + 1 + a.lexemes.length))
  | .argument a => a.annotationsFrom (n + 1)
  | .arguments a m => a.annotationsFrom (n + 1) ++ m.annotationsFrom (n + 1 + a.lexemes.length)
  | .not b => b.annotationsFrom (n + 1)
  | .binary _ l r => l.annotationsFrom n ++ r.annotationsFrom (n + l.lexemes.length + 1)
  | .quant _ _ a b =>
    b.annotationsFrom (n + 3 + (annotationLexemes a).length) ++ a.toList.map (n + 3, ·)

namespace Derivation

theorem map_snd_annotationsFrom (t : Derivation) (n : Nat) :
    (t.annotationsFrom n).map Prod.snd = t.annotations := by
  induction t generalizing n with
  | quant q x a b ih => cases a <;> simp [annotationsFrom, annotations, ih]
  | _ => simp [annotationsFrom, annotations, *]

/-- An annotation is the name at its place. -/
theorem getElem?_of_mem_annotationsFrom {t : Derivation} {n m : Nat} {a : String}
    (before after : List Lexeme) (hn : before.length = n) (h : (m, a) ∈ t.annotationsFrom n) :
    (before ++ (t.lexemes ++ after))[m]? = some (.name a) := by
  induction t generalizing n before after with
  | symbol s => cases h
  | group t ih =>
    have hin := ih (before ++ [.lpar]) (.rpar :: after) (by simp [hn]) h
    simpa [lexemes] using hin
  | apply f b ihf ihb =>
    rcases List.mem_append.1 h with h | h
    · have hin := ihf before (b.lexemes ++ after) hn h
      simpa [lexemes] using hin
    · have hin := ihb (before ++ f.lexemes) after (by simp [hn]) h
      simpa [lexemes] using hin
  | applyMany f b k ihf ihb ihk =>
    rcases List.mem_append.1 h with h | h
    · have hin := ihf before (.lpar :: (b.lexemes ++ (k.lexemes ++ .rpar :: after))) hn h
      simpa [lexemes] using hin
    rcases List.mem_append.1 h with h | h
    · have hin := ihb (before ++ f.lexemes ++ [.lpar]) (k.lexemes ++ .rpar :: after)
        (by simp [hn]; omega) h
      simpa [lexemes] using hin
    · have hin := ihk (before ++ f.lexemes ++ .lpar :: b.lexemes) (.rpar :: after)
        (by simp [hn]; omega) h
      simpa [lexemes] using hin
  | argument b ih =>
    have hin := ih (before ++ [.comma]) after (by simp [hn]) h
    simpa [lexemes] using hin
  | arguments b k ihb ihk =>
    rcases List.mem_append.1 h with h | h
    · have hin := ihb (before ++ [.comma]) (k.lexemes ++ after) (by simp [hn]) h
      simpa [lexemes] using hin
    · have hin := ihk (before ++ .comma :: b.lexemes) after (by simp [hn]; omega) h
      simpa [lexemes] using hin
  | not b ih =>
    have hin := ih (before ++ [.not]) after (by simp [hn]) h
    simpa [lexemes] using hin
  | binary op l r ihl ihr =>
    rcases List.mem_append.1 h with h | h
    · have hin := ihl before (.binary op :: (r.lexemes ++ after)) hn h
      simpa [lexemes] using hin
    · have hin := ihr (before ++ l.lexemes ++ [.binary op]) after (by simp [hn]; omega) h
      simpa [lexemes] using hin
  | quant q x s b ih =>
    rcases List.mem_append.1 h with h | h
    · have hin := ih (before ++ .quant q :: .name x :: (annotationLexemes s ++ [.dot]))
        after (by simp [hn]; omega) h
      simpa [lexemes] using hin
    · -- the annotation of the quantifier itself
      cases s with
      | none => cases h
      | some s =>
        obtain ⟨rfl, rfl⟩ : m = n + 3 ∧ a = s := by simpa using h
        simp [lexemes, annotationLexemes, ← hn]

end Derivation

/-- The lexeme number `n`, counted from zero, is the first annotation to be checked that names no
type, and `a` is what it names. -/
def Misnamed (ls : List Lexeme) (n : Nat) (a : String) : Prop :=
  ls[n]? = some (.name a) ∧ ∃ t, Derives .start t ∧ t.lexemes = ls ∧ t.Farthest ∧
    (t.annotationsFrom 0).find? (fun p => !isTypeName p.2) = some (n, a)

theorem exists_misnamed {t : Derivation} {a : String} (ht : Derives .start t)
    (hg : t.greedy = true) (ha : t.annotations.find? (!isTypeName ·) = some a) :
    ∃ n, Misnamed t.lexemes n a := by
  rw [← t.map_snd_annotationsFrom 0, List.find?_map, Option.map_eq_some_iff] at ha
  obtain ⟨⟨n, b⟩, hfind, rfl⟩ := ha
  have hmem := List.mem_of_find?_eq_some hfind
  have hplace := Derivation.getElem?_of_mem_annotationsFrom [] [] rfl hmem
  rw [List.nil_append, List.append_nil] at hplace
  exact ⟨n, hplace, t, ht, rfl, ht.farthest_of_greedy hg, hfind⟩

/-! ## What reading comes to -/

/-- What reading comes to, told without spellings and places; tokens are counted from zero. -/
inductive Answer where
  | formula (f : Formula)
  /-- There is no token. -/
  | empty
  /-- The token with this number cannot stand where it stands. -/
  | unexpected (n : Nat)
  /-- The text ends too early. -/
  | unfinished
  /-- The token with this number is an annotation that names no type. -/
  | unknownType (n : Nat)
  deriving DecidableEq, Repr

/-- The outcome of parsing a text with these lexemes says what the answer says, and names the place
of the token that it is about. -/
def Answer.Tells (text : String) (ls : List Lexeme) (r : Except ParseError Formula) : Answer → Prop
  | .formula f => r = .ok f
  | .empty => r = .error .empty
  | .unexpected n => ∃ t post, r = .error (.unexpected text t) ∧ ls[n]? = some t.lexeme ∧
      Spells t.lexeme t.spelling.toList post ∧
      Located text t.position (ls.take n) (t.spelling.toList ++ post)
  | .unfinished => ∃ ms l p w post, r = .error (.unfinished text p) ∧ ls = ms ++ [l] ∧
      Spells l w post ∧ Located text p ms (w ++ post)
  | .unknownType n => ∃ a, r = .error (.unknownType ⟨a⟩) ∧ Misnamed ls n a

theorem parse_of_readPhrase_eq_error {n : Nat} (h : LaidOut ls text.toList) (hls : ls ≠ [])
    (hread : readPhrase ls = .error n) : parse text = .error ((scan text).fault text n) := by
  obtain ⟨htokens, -⟩ := laidOut_iff.1 h
  have hblank : Text.blankText text = false := h.all_isBlank.trans (by simpa using hls)
  simp only [parse, hblank, Bool.false_eq_true, if_false, Scan.phrase, htokens, hread]

/-- **Lexemes have one answer, whatever text they are written in.** -/
theorem exists_answer (hnames : ∀ l ∈ ls, ∀ s ∈ l.names, isName s) :
    ∃ a : Answer, ∀ text : String, LaidOut ls text.toList → a.Tells text ls (parse text) := by
  by_cases hls : ls = []
  · refine ⟨.empty, fun text h => ?_⟩
    have hblank : Text.blankText text = true := h.all_isBlank.trans (by simp [hls])
    simp [Answer.Tells, parse, hblank]
  cases hread : readPhrase ls with
  | ok p =>
    obtain ⟨t, ht, hg, rfl, -⟩ := exists_derivation_of_readPhrase hnames hread
    have hblank : ∀ text : String, LaidOut t.lexemes text.toList → Text.blankText text = false :=
      fun text h => h.all_isBlank.trans (by simpa using hls)
    cases hfind : t.annotations.find? (!isTypeName ·) with
    | none =>
      have ha : ∀ a ∈ t.annotations, isTypeName a := by simpa using hfind
      exact ⟨.formula t.formula, fun text h =>
        parse_of_forall_isTypeName (hblank text h) h.lexes ht hg ha⟩
    | some a =>
      obtain ⟨n, hn⟩ := exists_misnamed ht hg hfind
      exact ⟨.unknownType n, fun text h =>
        ⟨a, parse_of_find? (hblank text h) h.lexes ht hg hfind, hn⟩⟩
  | error n =>
    cases hn : ls[n]? with
    | some l =>
      refine ⟨.unexpected n, fun text h => ?_⟩
      obtain ⟨htokens, -⟩ := laidOut_iff.1 h
      rw [← htokens, List.getElem?_map, Option.map_eq_some_iff] at hn
      obtain ⟨t, ht, rfl⟩ := hn
      obtain ⟨post, hlocated, hspells⟩ := located_token ht
      refine ⟨t, post, ?_, ?_, hspells, htokens ▸ hlocated⟩
      · rw [parse_of_readPhrase_eq_error h hls hread, Scan.fault, ht]
      · rw [← htokens, List.getElem?_map, ht, Option.map_some]
    | none =>
      refine ⟨.unfinished, fun text h => ?_⟩
      obtain ⟨htokens, hstuck⟩ := laidOut_iff.1 h
      have hend : (scan text).tokens[n]? = none := by
        rw [← htokens, List.getElem?_map, Option.map_eq_none_iff] at hn
        exact hn
      have hblank : Text.blankText text = false := h.all_isBlank.trans (by simpa using hls)
      have hfault := accurate_fault hblank (htokens.symm ▸ hread)
      have hparse := parse_of_readPhrase_eq_error h hls hread
      simp only [Scan.fault, hend, hstuck] at hfault hparse
      obtain ⟨-, ms, l, w, post, hlexes, -, -, hlocated, hspells⟩ := hfault
      have hlast : ls = ms ++ [l] := htokens.symm.trans (lexes_iff.1 hlexes).1
      exact ⟨ms, l, _, w, post, hparse, hlast, hspells, hlocated⟩

/-- **Spelling and spacing do not matter.** Two texts that are laid out from the same lexemes are
parsed to the same formula, or refused for the same fault at the same token. -/
theorem parse_of_laidOut {s t : String} (hs : LaidOut ls s.toList) (ht : LaidOut ls t.toList) :
    ∃ a : Answer, a.Tells s ls (parse s) ∧ a.Tells t ls (parse t) := by
  obtain ⟨a, ha⟩ := exists_answer (isName_of_lexes hs.lexes)
  exact ⟨a, ha s hs, ha t ht⟩

/-- One faulty sequence of tokens, `P x → →`, written in two ways: the second arrow is what both
texts are refused for. -/
theorem parse_of_laidOut_second_arrow :
    let ls : List Lexeme := [.name "P", .name "x", .binary .imp, .binary .imp]
    LaidOut ls "P x→→".toList ∧ LaidOut ls "\tP\n\nx ->->".toList ∧
      parse "P x→→" = .error (.unexpected "P x→→" ⟨.binary .imp, "→", ⟨1, 5⟩⟩) ∧
      ∃ a : Answer, a.Tells "P x→→" ls (parse "P x→→") ∧
        a.Tells "\tP\n\nx ->->" ls (parse "\tP\n\nx ->->") := by
  intro ls
  have hs : LaidOut ls "P x→→".toList := laidOut_iff.2 (by decide)
  have ht : LaidOut ls "\tP\n\nx ->->".toList := laidOut_iff.2 (by decide)
  exact ⟨hs, ht, by decide, parse_of_laidOut hs ht⟩

end Refutation.Reading
