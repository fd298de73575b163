import Mathlib.Data.List.Induction
import Refutation.Proofs.Reading.Lexemes

/-!
# How a text is split into tokens

What a token is, apart from any way to find it: a lexeme is written by one of its signs, or
by a name that does not go on behind it (`Spells`). `Lexes pre ls rest` says that the
characters `pre` are tokens with the lexemes `ls`, with spaces between them, where `rest`
follows. Splitting finds these tokens, each at its place, and it gets stuck only where no
token starts (`scanned`).

* `lexes_iff`: **a text is split into the lexemes of its tokens**, and into no others.
* `Scanned`: what is before a token and before the character at which splitting got stuck.
* `foldl_after_start`: lines and columns are counted from the characters before a place.
-/

namespace Refutation.Reading

/-- The signs of a lexeme that is no name. -/
def Lexeme.signs : Lexeme → List (List Char)
  | .not => [['¬'], ['~']]
  | .binary .and => [['∧'], ['&']]
  | .binary .or => [['∨'], ['|']]
  | .binary .imp => [['→'], ['-', '>']]
  | .binary .eq => [['=']]
  | .quant .all => [['∀'], ['!']]
  | .quant .ex => [['∃'], ['?']]
  | .name _ => []
  | .lpar => [['(']]
  | .rpar => [[')']]
  | .comma => [[',']]
  | .colon => [[':']]
  | .dot => [['.']]

/-- The characters `w` are a token with the lexeme `l`, where `post` follows: a sign of it, or
a name with which `post` does not go on. -/
def Spells (l : Lexeme) (w post : List Char) : Prop :=
  w ∈ l.signs ∨ l = .name (String.ofList w) ∧ isName (String.ofList w) ∧
    ∀ c ∈ post.head?, isNameChar c = false

/-- The characters `pre` are tokens with the lexemes `ls` and spaces, where `rest` follows. -/
inductive Lexes : List Char → List Lexeme → List Char → Prop
  | nil (rest : List Char) : Lexes [] [] rest
  | space {c : Char} {pre rest : List Char} {ls : List Lexeme} (hc : isSpace c = true)
      (h : Lexes pre ls rest) : Lexes (c :: pre) ls rest
  | token {l : Lexeme} {w pre rest : List Char} {ls : List Lexeme}
      (hl : Spells l w (pre ++ rest)) (h : Lexes pre ls rest) : Lexes (w ++ pre) (l :: ls) rest

/-- No token starts here. -/
def NoToken (cs : List Char) : Prop :=
  ∀ l w post, Spells l w post → cs ≠ w ++ post

/-- The place behind characters: one line for each line feed among them, and a column for
each character since the last one. -/
def Position.behind (pre : List Char) : Position :=
  ⟨pre.count '\n' + 1, (pre.reverse.takeWhile (· ≠ '\n')).length + 1⟩

theorem foldl_after_start (pre : List Char) :
    pre.foldl Position.after .start = Position.behind pre := by
  induction pre using List.reverseRecOn with
  | nil => rfl
  | append_singleton pre c ih =>
    rw [List.foldl_append, ih, List.foldl_cons, List.foldl_nil, Position.after, Position.behind,
      Position.behind, List.reverse_append, List.count_append]
    by_cases hc : c = '\n'
    · simp [hc]
    · simp [hc]

/-! ## Tokens and the lexeme at the start of a text -/

variable {l : Lexeme} {w post cs ds pre rest : List Char} {c : Char} {ls : List Lexeme}
  {p : Position}

theorem mem_signs_iff : w ∈ l.signs ↔
    (∃ c, w = [c] ∧ signOf? c = some l) ∨ w = ['-', '>'] ∧ l = .binary .imp := by
  constructor
  · intro h
    cases l with
    | binary op =>
      cases op with
      | imp =>
        rcases List.mem_cons.1 h with rfl | h
        · exact Or.inl ⟨_, rfl, rfl⟩
        · exact Or.inr ⟨List.mem_singleton.1 h, rfl⟩
      | _ =>
        simp only [Lexeme.signs, List.mem_cons, List.not_mem_nil, or_false] at h
        rcases h with rfl | rfl <;> exact Or.inl ⟨_, rfl, rfl⟩
    | quant q =>
      cases q <;>
        simp only [Lexeme.signs, List.mem_cons, List.not_mem_nil, or_false] at h <;>
        rcases h with rfl | rfl <;> exact Or.inl ⟨_, rfl, rfl⟩
    | not =>
      simp only [Lexeme.signs, List.mem_cons, List.not_mem_nil, or_false] at h
      rcases h with rfl | rfl <;> exact Or.inl ⟨_, rfl, rfl⟩
    | name s => cases h
    | _ => exact Or.inl ⟨_, List.mem_singleton.1 h, rfl⟩
  · rintro (⟨c, rfl, hc⟩ | ⟨rfl, rfl⟩)
    · unfold signOf? at hc
      split at hc <;> cases hc <;> decide
    · decide

/-- A token is the lexeme at the start of the text, and it starts with no space. -/
theorem Spells.lexemeAt? (h : Spells l w post) : ∃ c cs, w = c :: cs ∧ isSpace c = false ∧
    lexemeAt? (c :: (cs ++ post)) = some (l, cs.length + 1) := by
  rcases h with h | ⟨rfl, hname, hpost⟩
  · rcases mem_signs_iff.1 h with ⟨c, rfl, hc⟩ | ⟨rfl, rfl⟩
    · obtain ⟨hspace, hlex⟩ := lexemeAt?_sign hc post
      exact ⟨c, [], rfl, hspace, hlex⟩
    · exact ⟨'-', ['>'], rfl, by decide, rfl⟩
  · have hword := lexemeAt?_name hname hpost
    rwa [String.toList_ofList] at hword

/-- The lexeme at the start of a text is a token. -/
theorem exists_spells_of_lexemeAt? {k : Nat} (h : lexemeAt? cs = some (l, k)) :
    ∃ w post, cs = w ++ post ∧ Spells l w post := by
  unfold Reading.lexemeAt? at h
  split at h
  · cases h
  · rename_i post
    cases h
    exact ⟨['-', '>'], post, rfl, Or.inl (by decide)⟩
  · rename_i c ds _
    split at h
    · rename_i hstart
      cases h
      refine ⟨c :: ds.takeWhile isNameChar, ds.dropWhile isNameChar, ?_, Or.inr ⟨rfl, ?_, ?_⟩⟩
      · rw [List.cons_append, List.takeWhile_append_dropWhile]
      · rw [isName_iff]
        refine ⟨c, ds.takeWhile isNameChar, String.toList_ofList, hstart, ?_⟩
        exact fun d hd => List.all_eq_true.1 List.all_takeWhile d hd
      · intro d hd
        have hnot := List.head?_dropWhile_not isNameChar ds
        rw [Option.mem_def.1 hd] at hnot
        simpa using hnot
    · obtain ⟨l', hl', he⟩ := Option.map_eq_some_iff.1 h
      cases he
      exact ⟨[c], ds, rfl, Or.inl (mem_signs_iff.2 (Or.inl ⟨c, rfl, hl'⟩))⟩

/-! ## What splitting does at each place -/

theorem scanFrom_space (hc : isSpace c = true) (p : Position) (cs : List Char) :
    scanFrom 0 p (c :: cs) = scanFrom 0 (p.after c) cs := by
  rw [scanFrom]
  simp only [hc, if_true]

theorem scanFrom_token (h : Spells l w post) (p : Position) : scanFrom 0 p (w ++ post) =
    (scanFrom 0 (w.foldl Position.after p) post).cons ⟨l, String.ofList w, p⟩ := by
  obtain ⟨c, cs, rfl, hspace, hlex⟩ := h.lexemeAt?
  rw [List.cons_append, scanFrom]
  simp only [hspace, Bool.false_eq_true, if_false, hlex, Nat.add_sub_cancel, scanFrom_append,
    List.foldl_cons, List.take_succ_cons, List.take_left]

theorem scanFrom_stuck (hc : isSpace c = false) (h : NoToken (c :: cs)) (p : Position) :
    scanFrom 0 p (c :: cs) = ⟨[], some (c, p)⟩ := by
  have hnone : lexemeAt? (c :: cs) = none := by
    refine Option.eq_none_iff_forall_not_mem.2 fun ⟨l, k⟩ hl => ?_
    obtain ⟨w, post, he, hspells⟩ := exists_spells_of_lexemeAt? hl
    exact h l w post hspells he
  rw [scanFrom]
  simp only [hc, Bool.false_eq_true, if_false, hnone]

/-- At each place stands a space, a token, or nothing that could be split off. -/
theorem cons_cases (c : Char) (cs : List Char) : isSpace c = true ∨
    (∃ l w post, c :: cs = w ++ post ∧ Spells l w post) ∨
      isSpace c = false ∧ NoToken (c :: cs) := by
  by_cases hc : isSpace c = true
  · exact Or.inl hc
  by_cases ht : NoToken (c :: cs)
  · exact Or.inr (Or.inr ⟨by simpa using hc, ht⟩)
  · unfold NoToken at ht
    push Not at ht
    obtain ⟨l, w, post, hspells, he⟩ := ht
    exact Or.inr (Or.inl ⟨l, w, post, he, hspells⟩)

/-! ## What splitting a text gives -/

/-- The characters before each token are the tokens before it and spaces, and so for the
character at which splitting got stuck. Places are counted from `p` on. -/
structure Scanned (p : Position) (cs : List Char) (s : Scan) : Prop where
  tokens : ∀ n t, s.tokens[n]? = some t → ∃ pre post, cs = pre ++ (t.spelling.toList ++ post) ∧
    Lexes pre ((s.tokens.map Token.lexeme).take n) (t.spelling.toList ++ post) ∧
      Spells t.lexeme t.spelling.toList post ∧ t.position = pre.foldl Position.after p
  stuck : ∀ c q, s.stuck = some (c, q) → ∃ pre post, cs = pre ++ c :: post ∧
    Lexes pre (s.tokens.map Token.lexeme) (c :: post) ∧ isSpace c = false ∧
      NoToken (c :: post) ∧ q = pre.foldl Position.after p
  complete : s.stuck = none → Lexes cs (s.tokens.map Token.lexeme) []

namespace Scanned

variable {s : Scan}

theorem space (hc : isSpace c = true) (h : Scanned (p.after c) cs s) : Scanned p (c :: cs) s := by
  refine ⟨fun n t ht => ?_, fun d q hd => ?_, fun hs => (h.complete hs).space hc⟩
  · obtain ⟨pre, post, rfl, hlexes, hspells, hp⟩ := h.tokens n t ht
    exact ⟨c :: pre, post, rfl, hlexes.space hc, hspells, hp⟩
  · obtain ⟨pre, post, rfl, hlexes, hspace, hno, hp⟩ := h.stuck d q hd
    exact ⟨c :: pre, post, rfl, hlexes.space hc, hspace, hno, hp⟩

theorem cons (hl : Spells l w post) (h : Scanned (w.foldl Position.after p) post s) :
    Scanned p (w ++ post) (s.cons ⟨l, String.ofList w, p⟩) := by
  refine ⟨fun n t ht => ?_, fun d q hd => ?_, fun hs => ?_⟩
  · cases n with
    | zero =>
      obtain rfl : ⟨l, String.ofList w, p⟩ = t := by simpa [Scan.cons] using ht
      exact ⟨[], post, by simp, .nil _, by simpa using hl, rfl⟩
    | succ n =>
      obtain ⟨pre, rest, rfl, hlexes, hspells, hp⟩ := h.tokens n t (by simpa [Scan.cons] using ht)
      refine ⟨w ++ pre, rest, by simp, hlexes.token hl, hspells, ?_⟩
      rw [hp, List.foldl_append]
  · obtain ⟨pre, rest, rfl, hlexes, hspace, hno, hp⟩ := h.stuck d q hd
    refine ⟨w ++ pre, rest, by simp, hlexes.token hl, hspace, hno, ?_⟩
    rw [hp, List.foldl_append]
  · have hlexes := h.complete hs
    exact hlexes.token (by simpa using hl)

end Scanned

/-- **Splitting finds the tokens of a text.** -/
theorem scanned (p : Position) (cs : List Char) : Scanned p cs (scanFrom 0 p cs) := by
  match cs with
  | [] => exact ⟨by simp [scanFrom], by simp [scanFrom], fun _ => .nil []⟩
  | c :: cs =>
    rcases cons_cases c cs with hc | ⟨l, w, post, he, hl⟩ | ⟨hc, hno⟩
    · rw [scanFrom_space hc]
      exact (scanned (p.after c) cs).space hc
    · obtain ⟨d, ds, hw, -, -⟩ := hl.lexemeAt?
      have hle : post.length ≤ cs.length := by
        have hlength := congrArg List.length he
        rw [hw, List.length_append, List.length_cons, List.length_cons] at hlength
        omega
      rw [he, scanFrom_token hl]
      exact (scanned (w.foldl Position.after p) post).cons hl
    · rw [scanFrom_stuck hc hno]
      refine ⟨by simp, fun d q hd => ?_, by simp⟩
      obtain ⟨rfl, rfl⟩ : c = d ∧ p = q := by simpa using hd
      exact ⟨[], cs, rfl, .nil _, hc, hno, rfl⟩
termination_by cs.length

/-- What precedes a place is split as it is alone. -/
theorem Lexes.splits {ms : List Lexeme} (h : Lexes pre ls rest) (hr : Splits rest ms) :
    Splits (pre ++ rest) (ls ++ ms) := by
  induction h with
  | nil rest => exact hr
  | space hc _ ih =>
    intro p
    rw [List.cons_append, scanFrom_space hc]
    exact ih hr (p.after _)
  | @token l w pre rest ls hl _ ih =>
    intro p
    rw [List.append_assoc, scanFrom_token hl]
    obtain ⟨htokens, hstuck⟩ := ih hr (w.foldl Position.after p)
    exact ⟨by simp [Scan.cons, htokens], hstuck⟩

/-- **A text is split into the lexemes of its tokens**, and into no others. -/
theorem lexes_iff {text : String} : Lexes text.toList ls [] ↔
    (scan text).tokens.map Token.lexeme = ls ∧ (scan text).stuck = none := by
  constructor
  · intro h
    have hsplits := h.splits splits_nil
    rw [List.append_nil, List.append_nil] at hsplits
    exact hsplits .start
  · rintro ⟨rfl, hstuck⟩
    exact (scanned .start text.toList).complete hstuck

/-! ## Spaces only -/

theorem isBlank_of_isSpace (h : isSpace c = true) : Text.isBlank c = true := by
  simp only [isSpace, Bool.or_eq_true, decide_eq_true_eq] at h
  rcases h with (((rfl | rfl) | rfl) | rfl) | rfl <;> decide

/-- A text without tokens is blank. -/
theorem Lexes.all_isBlank (h : Lexes pre [] rest) : pre.all Text.isBlank = true := by
  generalize hls : ([] : List Lexeme) = ls at h
  induction h with
  | nil => rfl
  | space hc _ ih => rw [List.all_cons, isBlank_of_isSpace hc, ih hls]; rfl
  | token => cases hls

end Refutation.Reading
