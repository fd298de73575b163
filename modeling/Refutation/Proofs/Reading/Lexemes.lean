import Refutation.Proofs.Reading.Names

/-!
# The lexemes of a text

The printer writes characters and the reader reads lexemes. `Formula.lexemes` is the
printer at the level of lexemes: it follows the recursion of `Formula.text` and leaves out
the blanks. A text is split into these lexemes in any surroundings (`Splits`), as long as
what follows it does not lengthen a name.

* `Formula.Declared.splits_text`: **the text of a declared formula splits into its lexemes.**
* `Formula.Declared.parse_text_eq_ok_iff`: parsing a text that was printed is reading its
  lexemes.
-/

namespace Refutation

open Reading

namespace Formula

mutual

/-- The lexemes of the text of a formula. -/
def lexemes : Formula → List Lexeme
  | .var n _ => [.name n]
  | .const n _ => [.name n]
  | .app f a =>
    match f.head.symbol? with
    | some h => .name h :: .lpar :: (argLexemes f ++ (lexemes a ++ [.rpar]))
    | none => .lpar :: (lexemes f ++ (lexemes a ++ [.rpar]))
  | .not b => .not :: lexemes b
  | .binary op l r => .lpar :: (lexemes l ++ .binary op :: (lexemes r ++ [.rpar]))
  | .quant q x τ b =>
    .quant q :: .name x :: .colon :: .name τ.text :: .dot :: .lpar :: (lexemes b ++ [.rpar])
termination_by structural f => f

/-- The lexemes of the arguments of an application, each with a comma behind it. -/
def argLexemes : Formula → List Lexeme
  | .app f a => argLexemes f ++ (lexemes a ++ [.comma])
  | _ => []
termination_by structural f => f

end

theorem lexemes_app_of_symbol {f a : Formula} {n : String} (hn : f.head.symbol? = some n) :
    (app f a).lexemes = .name n :: .lpar :: (f.argLexemes ++ (a.lexemes ++ [.rpar])) := by
  rw [lexemes, hn]

theorem lexemes_app_of_none {f a : Formula} (hn : f.head.symbol? = none) :
    (app f a).lexemes = .lpar :: (f.lexemes ++ (a.lexemes ++ [.rpar])) := by
  rw [lexemes, hn]

/-- The arguments of an application, each with a comma and a blank behind it. -/
def argPrefix (f : Formula) : List Char :=
  f.args.flatMap fun a => a.text.toList ++ [',', ' ']

theorem argPrefix_app (f a : Formula) :
    (app f a).argPrefix = f.argPrefix ++ (a.text.toList ++ [',', ' ']) := by
  simp [argPrefix, args]

theorem furtherChars_concat (as : List Formula) (a : Formula) :
    furtherChars (as ++ [a]) =
      ',' :: ' ' :: ((as.flatMap fun b => b.text.toList ++ [',', ' ']) ++
        (a.text.toList ++ [')'])) := by
  induction as with
  | nil => simp [furtherChars]
  | cons b bs ih => simp [furtherChars, ih]

/-- The text of a symbol with arguments, the last argument apart from the others. -/
theorem toList_text_app_of_symbol {f a : Formula} {n : String} (hn : f.head.symbol? = some n)
    (r : List Char) : (app f a).text.toList ++ r =
      n.toList ++ '(' :: (f.argPrefix ++ (a.text.toList ++ ')' :: r)) := by
  have hn' : (app f a).head.symbol? = some n := hn
  rw [toList_text_of_symbol hn', args, argPrefix]
  cases f.args with
  | nil => simp [argChars, furtherChars]
  | cons b bs => simp [argChars, furtherChars_concat]

end Formula

namespace Reading

/-! ## Splitting a text -/

/-- The characters are split into the lexemes, at any place. -/
def Splits (cs : List Char) (ls : List Lexeme) : Prop :=
  ∀ p, (scanFrom 0 p cs).tokens.map Token.lexeme = ls ∧ (scanFrom 0 p cs).stuck = none

variable {cs r : List Char} {ls : List Lexeme} {n : String}

theorem splits_nil : Splits [] [] := fun _ => ⟨rfl, rfl⟩

theorem Splits.space (h : Splits cs ls) : Splits (' ' :: cs) ls := by
  intro p
  have hs : isSpace ' ' = true := rfl
  rw [scanFrom]
  simp only [hs, if_true]
  exact h _

/-- The characters of a token are passed over. -/
theorem scanFrom_append (as cs : List Char) (p : Position) :
    scanFrom as.length p (as ++ cs) = scanFrom 0 (as.foldl Position.after p) cs := by
  induction as generalizing p with
  | nil => rfl
  | cons a as ih => exact ih (p.after a)

/-- What is split off first is the lexeme at the start. -/
theorem Splits.cons {c : Char} {l : Lexeme} (hc : isSpace c = false)
    (hl : lexemeAt? (c :: (cs ++ r)) = some (l, cs.length + 1)) (h : Splits r ls) :
    Splits (c :: (cs ++ r)) (l :: ls) := by
  intro p
  rw [scanFrom]
  simp only [hc, Bool.false_eq_true, if_false, hl, Scan.cons, List.map_cons,
    Nat.add_sub_cancel, scanFrom_append]
  obtain ⟨htokens, hstuck⟩ := h (cs.foldl Position.after (p.after c))
  exact ⟨by rw [htokens], hstuck⟩

theorem lexemeAt?_cons {c : Char} (hc : c ≠ '-') : lexemeAt? (c :: cs) =
    if isNameStart c then
      some (.name (String.ofList (c :: cs.takeWhile isNameChar)),
        (cs.takeWhile isNameChar).length + 1)
    else (signOf? c).map (·, 1) := by
  unfold lexemeAt?
  split
  · rename_i he; cases he
  · rename_i he
    exact absurd (List.cons.inj he).1 hc
  · rename_i he
    obtain ⟨rfl, rfl⟩ := List.cons.inj he
    rfl

theorem lexemeAt?_sign {c : Char} {l : Lexeme} (hc : signOf? c = some l) (cs : List Char) :
    isSpace c = false ∧ lexemeAt? (c :: cs) = some (l, 1) := by
  have hplain : isSpace c = false ∧ isNameStart c = false ∧ c ≠ '-' := by
    unfold signOf? at hc
    split at hc <;> first | decide | cases hc
  obtain ⟨hspace, hstart, hdash⟩ := hplain
  refine ⟨hspace, ?_⟩
  rw [lexemeAt?_cons hdash, if_neg (by simp [hstart]), hc]
  rfl

theorem Splits.sign {c : Char} {l : Lexeme} (hc : signOf? c = some l) (h : Splits cs ls) :
    Splits (c :: cs) (l :: ls) := by
  obtain ⟨hspace, hlex⟩ := lexemeAt?_sign hc cs
  exact Splits.cons hspace (List.nil_append cs ▸ hlex) h

theorem takeWhile_append_of_head? {p : Char → Bool} (hcs : ∀ c ∈ cs, p c)
    (hr : ∀ c ∈ r.head?, p c = false) : (cs ++ r).takeWhile p = cs := by
  rw [List.takeWhile_append_of_pos hcs]
  cases r with
  | nil => simp
  | cons c r => simp [List.takeWhile, hr c (by simp)]

/-- A name is the first lexeme if nothing follows that would lengthen it. -/
theorem lexemeAt?_name (hn : isName n) (hr : ∀ c ∈ r.head?, isNameChar c = false) :
    ∃ c cs, n.toList = c :: cs ∧ isSpace c = false ∧
      lexemeAt? (c :: (cs ++ r)) = some (.name n, cs.length + 1) := by
  obtain ⟨c, cs, hcs, hstart, hchars⟩ := isName_iff.1 hn
  have hword : String.ofList (c :: cs) = n := by rw [← hcs, String.ofList_toList]
  have hspace : isSpace c = false := by
    refine Bool.eq_false_iff.2 fun hs => ?_
    simp only [isSpace, Bool.or_eq_true, decide_eq_true_eq] at hs
    rcases hs with (((rfl | rfl) | rfl) | rfl) | rfl <;> revert hstart <;> decide
  have hdash : c ≠ '-' := by rintro rfl; revert hstart; decide
  refine ⟨c, cs, hcs, hspace, ?_⟩
  rw [lexemeAt?_cons hdash, if_pos hstart, takeWhile_append_of_head? hchars hr, hword]

/-- A name is split off as a whole. -/
theorem Splits.name (hn : isName n) (hr : ∀ c ∈ r.head?, isNameChar c = false)
    (h : Splits r ls) : Splits (n.toList ++ r) (.name n :: ls) := by
  obtain ⟨c, cs, hcs, hspace, hlex⟩ := lexemeAt?_name hn hr
  rw [hcs, List.cons_append]
  exact Splits.cons hspace hlex h

end Reading

/-! ## Splitting a text that was printed -/

theorem Connective.splits_sign (op : Connective) {cs : List Char} {ls : List Lexeme}
    (h : Splits cs ls) : Splits (op.sign.toList ++ cs) (.binary op :: ls) := by
  cases op <;> exact h.sign rfl

theorem Quantifier.splits_sign (q : Quantifier) {cs : List Char} {ls : List Lexeme}
    (h : Splits cs ls) : Splits (q.sign.toList ++ cs) (.quant q :: ls) := by
  cases q <;> exact h.sign rfl

theorem Ty.isName_text {τ : Ty} (h : τ = .individual ∨ τ = .truth) : isName τ.text := by
  rcases h with rfl | rfl <;> decide

namespace Formula

/-- **The text of a declared formula splits into its lexemes**, whatever stop follows it. -/
theorem Declared.splits_text {f : Formula} (hf : f.Declared) {r : List Char} {ls : List Lexeme}
    (hr : Stops r) (h : Splits r ls) : Splits (f.text.toList ++ r) (f.lexemes ++ ls) := by
  -- a symbol with arguments is not a part of a larger one, so its arguments are carried along
  suffices key :
      (∀ r ls, Stops r → Splits r ls → Splits (f.text.toList ++ r) (f.lexemes ++ ls)) ∧
      ∀ r ls, Splits r ls → Splits (f.argPrefix ++ r) (f.argLexemes ++ ls) from key.1 r ls hr h
  clear hr h r ls
  induction f with
  | var n τ =>
    refine ⟨fun r ls hr h => ?_, fun r ls h => h⟩
    exact Splits.name hf.1 (fun c hc => (hr c hc).1) h
  | const n τ =>
    refine ⟨fun r ls hr h => ?_, fun r ls h => h⟩
    exact Splits.name hf.1 (fun c hc => (hr c hc).1) h
  | app f a ihf iha =>
    obtain ⟨htext, hargs⟩ := ihf hf.1
    obtain ⟨harg, -⟩ := iha hf.2
    refine ⟨fun r ls hr h => ?_, fun r ls h => ?_⟩
    · cases hn : f.head.symbol? with
      | some n =>
        rw [toList_text_app_of_symbol hn, lexemes_app_of_symbol hn]
        have hlast := harg _ _ stops_rpar (h.sign (c := ')') rfl)
        have hall := (hargs _ _ hlast).sign (c := '(') rfl
        have hname : isName n := hf.resolved.named.isName_head (f := app f a) hn
        simpa using Splits.name hname (head?_cons_isNameChar rfl _) hall
      | none =>
        rw [toList_text_app hn, lexemes_app_of_none hn]
        have hlast := harg _ _ stops_rpar (h.sign (c := ')') rfl)
        simpa using (htext _ _ stops_space hlast.space).sign (c := '(') rfl
    · rw [argPrefix_app, argLexemes]
      have hcomma : Stops (',' :: ' ' :: r) := stops_cons rfl (by decide)
      simpa using hargs _ _ (harg _ _ hcomma (h.space.sign (c := ',') rfl))
  | not b ih =>
    refine ⟨fun r ls hr h => ?_, fun r ls h => h⟩
    rw [toList_text_not, lexemes]
    exact ((ih hf).1 _ _ hr h).sign rfl
  | binary op a b iha ihb =>
    refine ⟨fun r ls hr h => ?_, fun r ls h => h⟩
    rw [toList_text_binary, lexemes]
    have hright := (ihb hf.2).1 _ _ stops_rpar (h.sign (c := ')') rfl)
    have hop := op.splits_sign hright.space
    simpa using ((iha hf.1).1 _ _ stops_space hop.space).sign (c := '(') rfl
  | quant q x τ b ih =>
    refine ⟨fun r ls hr h => ?_, fun r ls h => h⟩
    rw [toList_text_quant, lexemes]
    have hbody := (ih hf.2.2).1 _ _ stops_rpar (h.sign (c := ')') rfl)
    have hdot := (hbody.sign (c := '(') rfl).sign (c := '.') rfl
    have htype := (Splits.name (Ty.isName_text hf.2.1) (head?_cons_isNameChar rfl _) hdot).sign
      (c := ':') rfl
    simpa using q.splits_sign (Splits.name hf.1 (head?_cons_isNameChar rfl _) htype)

theorem isBlank_of_isNameStart {c : Char} (h : isNameStart c) : Text.isBlank c = false := by
  have hrange : 65 ≤ c.toNat ∧ c.toNat ≤ 122 := by
    have hcases : (decide (c.val ≥ 'A'.val ∧ c.val ≤ 'Z'.val) ||
        (decide (c.val ≥ 'a'.val) && decide (c.val ≤ 'z'.val)) || decide (c = '_')) = true := h
    simp only [Bool.or_eq_true, Bool.and_eq_true, decide_eq_true_eq, ge_iff_le,
      UInt32.le_iff_toNat_le] at hcases
    rcases hcases with (h | h) | rfl
    · exact ⟨h.1, Nat.le_trans h.2 (by decide)⟩
    · exact ⟨Nat.le_trans (by decide) h.1, h.2⟩
    · decide
  simp only [Text.isBlank, Text.inRanges, Text.blankRanges, Text.CharRange.contains, List.any_cons,
    List.any_nil, Bool.or_false, Bool.or_eq_false_iff, Bool.and_eq_false_iff, decide_eq_false_iff_not]
  omega

/-- No text starts with a blank. -/
theorem Named.blankText_text {f : Formula} (hf : f.Named) : Text.blankText f.text = false := by
  obtain ⟨c, cs, hc, hlead⟩ := exists_lead hf []
  rw [List.append_nil] at hc
  have hblank : Text.isBlank c = false := by
    unfold leadOf? at hlead
    split at hlead
    · rename_i hs
      exact isBlank_of_isNameStart hs
    · split at hlead <;> first | decide | cases hlead
  rw [Text.blankText, hc, List.all_cons, hblank]
  rfl

/-- Parsing a text that was printed is reading its lexemes. -/
theorem Declared.parse_text_eq_ok_iff {f g : Formula} (hf : f.Declared) :
    parse f.text = .ok g ↔ ∃ p, readPhrase f.lexemes = .ok p ∧ p.resolve = .ok g := by
  have hsplits := hf.splits_text (r := []) (by simp [Stops]) splits_nil .start
  rw [List.append_nil, List.append_nil] at hsplits
  have hblank := hf.resolved.named.blankText_text
  rw [parse_eq_ok_iff, scan, hsplits.1, hsplits.2]
  simp [hblank]

end Formula

end Refutation
