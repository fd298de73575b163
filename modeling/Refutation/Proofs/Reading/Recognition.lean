import Refutation.Proofs.Reading.Ambiguity

/-!
# What a reader has read

A reader keeps phrases and forgets the lexemes they were read from. `Opened fs ls` says that
the lexemes `ls` open the frames `fs`: the phrases in them come from greedy derivations, and
each frame, once its hole is filled, fits into the next one outside of it. `Reader.Holds` is
the invariant of a reader: what it has read are frames that were opened, and a piece behind
them.

A frame is filled by what derives from the level of its hole (`Read.fill`). A connective
closes frames only as long as no body of a quantifier is among them, so its left side does
not end in such a body (`Read.opened_right`); a comma or a closing bracket closes them all
(`Read.close`).

* `Reader.Holds.step`: one lexeme keeps the invariant.
* `exists_derivation_of_readPhrase`: **a phrase that was read is that of a greedy
  derivation.**
-/

namespace Refutation.Reading

/-- The level of what the hole of a frame takes. -/
def Frame.hole : Frame → Nat
  | .not => 3
  | .right op _ => rightGrade op
  | _ => 0

/-- The level of what a frame becomes when its hole is filled. -/
def Frame.filled : Frame → Nat
  | .not => 3
  | .right op _ => grade op
  | .body _ _ _ => 3
  | _ => 5

/-- The innermost frame takes what derives from a level. -/
def Admits (k : Nat) (fs : List Frame) : Prop :=
  ∀ f ∈ fs.head?, f.hole ≤ k

/-- The frames that lexemes open. Arguments that are complete stand in the frame of the one
that is being read. -/
inductive Opened : List Frame → List Lexeme → Prop
  | nil : Opened [] []
  | not {fs : List Frame} {ls : List Lexeme} (h : Opened fs ls) (hfs : Admits 3 fs) :
      Opened (.not :: fs) (ls ++ [.not])
  | right {fs : List Frame} {ls : List Lexeme} {op : Connective} {t : Derivation}
      (h : Opened fs ls) (hfs : Admits (grade op) fs) (ht : Derives (level (grade op + 1)) t)
      (hg : t.greedy = true) (hb : t.endsInBody = false) :
      Opened (.right op t.phrase :: fs) (ls ++ (t.lexemes ++ [.binary op]))
  | body {fs : List Frame} {ls : List Lexeme} {q : Quantifier} {x : String} {a : Option String}
      (h : Opened fs ls) (hfs : Admits 3 fs) (hx : isName x) (ha : ∀ s ∈ a, isName s) :
      Opened (.body q x a :: fs) (ls ++ .quant q :: .name x :: (annotationLexemes a ++ [.dot]))
  | group {fs : List Frame} {ls : List Lexeme} (h : Opened fs ls) :
      Opened (.group :: fs) (ls ++ [.lpar])
  | argument {fs : List Frame} {ls : List Lexeme} {f : Derivation} {as : List Derivation}
      (h : Opened fs ls) (hf : Derives .application f) (hg : f.greedy = true)
      (has : ∀ a ∈ as, Derives .implication a ∧ a.greedy = true) :
      Opened (.argument ((as.map Derivation.phrase).foldl .app f.phrase) :: fs)
        (ls ++ (f.lexemes ++ .lpar :: as.flatMap fun a => a.lexemes ++ [.comma]))

/-- The lexemes open the frames, and behind them stands a phrase of the level that fits into
the innermost frame. It ends in the body of a quantifier only if `b` allows that. -/
def Read (k : Nat) (b : Bool) (p : Phrase) (fs : List Frame) (ls : List Lexeme) : Prop :=
  ∃ ms t, Opened fs ms ∧ Admits k fs ∧ Derives (level k) t ∧ t.greedy = true ∧
    (t.endsInBody = true → b = true) ∧ t.phrase = p ∧ ms ++ t.lexemes = ls

variable {fs gs : List Frame} {ls ms : List Lexeme} {p q : Phrase} {k : Nat} {b : Bool}

/-- Every frame takes an application. -/
theorem admits_application (fs : List Frame) : Admits 5 fs := by
  intro f _
  cases f with
  | right op l => cases op <;> simp [Frame.hole, rightGrade, grade]
  | _ => simp [Frame.hole]

theorem Opened.read {t : Derivation} (h : Opened fs ms) (ht : Derives .application t)
    (hg : t.greedy = true) : Read 5 b t.phrase fs (ms ++ t.lexemes) := by
  refine ⟨ms, t, h, admits_application fs, ht, hg, ?_, rfl, rfl⟩
  simp [ht.endsInBody_application]

/-! ## Filling frames -/

/-- **Filling the innermost frame** keeps what was read. -/
theorem Read.fill {f : Frame} (h : Read k b p (f :: fs) ls) (hf : f.isBracket = false)
    (hb : ∀ q x a, f = .body q x a → b = true) : Read f.filled b (f.fill p) fs ls := by
  obtain ⟨ms, t, ho, hadmits, ht, hg, he, rfl, rfl⟩ := h
  have hhole : f.hole ≤ k := hadmits f rfl
  have hfits := ht.loosen hhole
  cases ho with
  | not ho hfs =>
    exact ⟨_, .not t, ho, hfs, .not hfits, hg, he, rfl, by simp [Derivation.lexemes]⟩
  | @right _ ls op l ho hfs hl hgl hbl =>
    refine ⟨ls, .binary op l t, ho, hfs, hl.binary op hfits, ?_, he, rfl, ?_⟩
    · simp [Derivation.greedy, hbl, hgl, hg]
    · simp [Derivation.lexemes]
  | @body _ ls q x a ho hfs hx ha =>
    refine ⟨ls, .quant q x a t, ho, hfs, .quantified (.quant hx ha hfits), hg, ?_, rfl, ?_⟩
    · exact fun _ => hb q x a rfl
    · simp [Derivation.lexemes]
  | group ho => cases hf
  | argument ho hf' hg' has => cases hf

variable {done : Frame → Bool}

theorem settle_snd (p : Phrase) (fs : List Frame) :
    (settle done p fs).2 = fs.dropWhile done := by
  induction fs generalizing p with
  | nil => rfl
  | cons f fs ih =>
    rw [settle, List.dropWhile_cons]
    split
    · exact ih (f.fill p)
    · rfl

/-- What filling one complete frame preserves, settling preserves. -/
theorem settle_induct {Q : Phrase → List Frame → Prop}
    (hfill : ∀ p f fs, done f = true → Q p (f :: fs) → Q (f.fill p) fs) (h : Q p fs) :
    Q (settle done p fs).1 (settle done p fs).2 := by
  induction fs generalizing p with
  | nil => exact h
  | cons f fs ih =>
    rw [settle]
    split
    · exact ih (hfill p f fs ‹_› h)
    · exact h

theorem of_mem_head?_dropWhile {f : Frame} (h : f ∈ (fs.dropWhile done).head?) :
    done f = false := by
  have hnot := List.head?_dropWhile_not done fs
  rw [Option.mem_def.1 h] at hnot
  simpa using hnot

/-! ## Connectives -/

theorem Frame.endsBefore_eq (f : Frame) : f.endsBefore .eq = false := by
  cases f with
  | right op l => cases op <;> rfl
  | _ => rfl

/-- A frame that ends before a connective binds more tightly. -/
theorem Frame.grade_lt_filled {op : Connective} {f : Frame} (h : f.endsBefore op = true) :
    grade op + 1 ≤ f.filled := by
  cases f with
  | not => cases op <;> simp [endsBefore, filled, grade] at h ⊢
  | right op' l => cases op <;> cases op' <;> simp [endsBefore, strength, filled, grade] at h ⊢
  | _ => cases h

/-- A frame that goes on over a connective takes what it joins, unless both are
equalities. -/
theorem Frame.hole_le_grade {op : Connective} {f : Frame} (h : f.endsBefore op = false)
    (hne : op = .eq → ∀ l, f ≠ .right .eq l) : f.hole ≤ grade op := by
  cases f with
  | not => cases op <;> simp [endsBefore, hole, grade] at h ⊢
  | right op' l =>
    cases op <;> cases op' <;> simp [endsBefore, strength, hole, grade, rightGrade] at h hne ⊢
  | _ => exact Nat.zero_le _

/-- The effect of a connective: equality may not follow an equality, and it closes
nothing. -/
theorem Reader.step_connective (op : Connective) (p : Phrase) (fs : List Frame) :
    step ⟨.after p, fs⟩ (.binary op) =
      if op = .eq ∧ inEquality fs then none
      else some ⟨if op = .eq then .side else .operand,
        .right op (settle (·.endsBefore op) p fs).1 :: (settle (·.endsBefore op) p fs).2⟩ := by
  cases op with
  | eq =>
    have hsettle : settle (·.endsBefore .eq) p fs = (p, fs) := by
      cases fs with
      | nil => rfl
      | cons f fs => simp [settle, f.endsBefore_eq]
    simp [step, hsettle]
  | _ => simp [step]

/-- **A connective takes what stands before it as its left side.** -/
theorem Read.opened_right (op : Connective) (h : Read 5 false p fs ls)
    (heq : op = .eq → Reader.inEquality fs = false) :
    Opened (.right op (settle (·.endsBefore op) p fs).1 :: (settle (·.endsBefore op) p fs).2)
      (ls ++ [.binary op]) := by
  have hkey : ∃ k, grade op + 1 ≤ k ∧ Read k false (settle (·.endsBefore op) p fs).1
      (settle (·.endsBefore op) p fs).2 ls := by
    refine settle_induct (Q := fun p fs => ∃ k, grade op + 1 ≤ k ∧ Read k false p fs ls) ?_
      ⟨5, by cases op <;> decide, h⟩
    -- no frame that ends before a connective is the body of a quantifier
    rintro p f fs hdone ⟨k, hk, hread⟩
    refine ⟨f.filled, Frame.grade_lt_filled hdone, hread.fill ?_ ?_⟩
    · cases f <;> first | rfl | cases hdone
    · rintro q x a rfl
      cases hdone
  have hadmits : Admits (grade op) (settle (·.endsBefore op) p fs).2 := by
    intro f hf
    rw [settle_snd] at hf
    refine Frame.hole_le_grade (of_mem_head?_dropWhile hf) ?_
    rintro rfl l rfl
    -- nothing is closed before an equality, so the frame was there before
    cases fs with
    | nil => cases hf
    | cons g gs =>
      rw [List.dropWhile_cons_of_neg (by simp [g.endsBefore_eq])] at hf
      obtain rfl : g = .right .eq l := by simpa using hf
      cases heq rfl
  obtain ⟨k, hk, ms, t, ho, -, ht, hg, he, hp, rfl⟩ := hkey
  have hopened := ho.right hadmits (ht.loosen hk) hg (by simpa using he)
  rw [hp] at hopened
  simpa using hopened

/-! ## Brackets -/

/-- **A comma or a closing bracket ends all that was opened inside the brackets.** -/
theorem Read.close (h : Read k b p fs ls) (hc : Reader.close p fs = (q, gs)) :
    ∃ ms t, Opened gs ms ∧ Derives .implication t ∧ t.greedy = true ∧ t.phrase = q ∧
      ms ++ t.lexemes = ls := by
  have hkey : ∃ k, Read k true (Reader.close p fs).1 (Reader.close p fs).2 ls := by
    obtain ⟨ms, t, ho, hfs, ht, hg, -, hp, hls⟩ := h
    refine settle_induct (Q := fun p fs => ∃ k, Read k true p fs ls) ?_
      ⟨k, ms, t, ho, hfs, ht, hg, fun _ => rfl, hp, hls⟩
    rintro p f fs hdone ⟨k, hread⟩
    exact ⟨f.filled, hread.fill (by simpa using hdone) fun _ _ _ _ => rfl⟩
  rw [hc] at hkey
  obtain ⟨k, ms, t, ho, -, ht, hg, -, hp, hls⟩ := hkey
  exact ⟨ms, t, ho, ht.loosen (Nat.zero_le k), hg, hp, hls⟩

namespace Derivation

/-- Further arguments, the last of them apart. -/
def moreArguments (as : List Derivation) (t : Derivation) : Derivation :=
  as.foldr .arguments (.argument t)

/-- An application to the arguments in brackets, the last of them apart. -/
def applied (f : Derivation) (as : List Derivation) (t : Derivation) : Derivation :=
  match as with
  | [] => .apply f (.group t)
  | a :: as => .applyMany f a (moreArguments as t)

variable {as : List Derivation} {f t : Derivation}

theorem lexemes_moreArguments (as : List Derivation) (t : Derivation) :
    (moreArguments as t).lexemes =
      .comma :: ((as.flatMap fun a => a.lexemes ++ [.comma]) ++ t.lexemes) := by
  induction as with
  | nil => rfl
  | cons a as ih =>
    have hcons : moreArguments (a :: as) t = .arguments a (moreArguments as t) := rfl
    rw [hcons, lexemes, ih]
    simp

theorem phrases_moreArguments (as : List Derivation) (t : Derivation) :
    (moreArguments as t).phrases = as.map phrase ++ [t.phrase] := by
  induction as with
  | nil => rfl
  | cons a as ih =>
    have hcons : moreArguments (a :: as) t = .arguments a (moreArguments as t) := rfl
    rw [hcons, phrases, ih]
    rfl

theorem derives_moreArguments (has : ∀ a ∈ as, Derives .implication a ∧ a.greedy = true)
    (ht : Derives .implication t) (hg : t.greedy = true) :
    Derives .arguments (moreArguments as t) ∧ (moreArguments as t).greedy = true := by
  induction as with
  | nil => exact ⟨.argument ht, hg⟩
  | cons a as ih =>
    rw [List.forall_mem_cons] at has
    obtain ⟨hmore, hgmore⟩ := ih has.2
    refine ⟨.arguments has.1.1 hmore, ?_⟩
    have hcons : moreArguments (a :: as) t = .arguments a (moreArguments as t) := rfl
    rw [hcons, greedy, has.1.2, hgmore]
    rfl

theorem lexemes_applied (f : Derivation) (as : List Derivation) (t : Derivation) :
    (applied f as t).lexemes = f.lexemes ++ .lpar ::
      ((as.flatMap fun a => a.lexemes ++ [.comma]) ++ (t.lexemes ++ [.rpar])) := by
  cases as with
  | nil => simp [applied, lexemes]
  | cons a as => simp [applied, lexemes, lexemes_moreArguments]

theorem phrase_applied (f : Derivation) (as : List Derivation) (t : Derivation) :
    (applied f as t).phrase = .app ((as.map phrase).foldl .app f.phrase) t.phrase := by
  cases as with
  | nil => rfl
  | cons a as => simp [applied, phrase, phrases_moreArguments]

theorem derives_applied (hf : Derives .application f) (hgf : f.greedy = true)
    (has : ∀ a ∈ as, Derives .implication a ∧ a.greedy = true) (ht : Derives .implication t)
    (hg : t.greedy = true) :
    Derives .application (applied f as t) ∧ (applied f as t).greedy = true := by
  cases as with
  | nil => exact ⟨.apply hf (.group ht), by simp [applied, greedy, hgf, hg]⟩
  | cons a as =>
    rw [List.forall_mem_cons] at has
    obtain ⟨hmore, hgmore⟩ := derives_moreArguments has.2 ht hg
    exact ⟨.applyMany hf has.1.1 hmore, by simp [applied, greedy, hgf, has.1.2, hgmore]⟩

end Derivation

/-! ## The invariant of a reader -/

/-- The lexemes of a quantifier that were read already. -/
def Cursor.lexemes : Cursor → List Lexeme
  | .binder q => [.quant q]
  | .bound q x => [.quant q, .name x]
  | .colon q x => [.quant q, .name x, .colon]
  | .annotated q x a => [.quant q, .name x, .colon, .name a]
  | _ => []

/-- What a reader has read. -/
def Reader.Holds (r : Reader) (ls : List Lexeme) : Prop :=
  match r.cursor with
  | .after p => Read 5 false p r.frames ls
  | .side => Opened r.frames ls
  | c => ∃ ms, Opened r.frames ms ∧ Admits 3 r.frames ∧
      (∀ l ∈ c.lexemes, ∀ s ∈ l.names, isName s) ∧ ms ++ c.lexemes = ls

theorem isName_of_cursor {c : Cursor} {s : String}
    (h : ∀ l ∈ c.lexemes, ∀ s ∈ l.names, isName s) (hs : .name s ∈ c.lexemes) : isName s :=
  h _ hs s (by simp [Lexeme.names])

namespace Reader.Holds

variable {r r' : Reader}

theorem operand (h : Opened fs ls) (hfs : Admits 3 fs) : Holds ⟨.operand, fs⟩ ls :=
  ⟨ls, h, hfs, by simp [Cursor.lexemes], by simp [Cursor.lexemes]⟩

/-- A name is an atom. -/
theorem name (h : Opened fs ls) {s : String} (hs : isName s) :
    Holds ⟨.after (.name s), fs⟩ (ls ++ [.name s]) :=
  h.read (.application (.symbol hs)) rfl

theorem lpar (h : Opened fs ls) : Holds ⟨.operand, .group :: fs⟩ (ls ++ [.lpar]) :=
  operand h.group (by simp [Admits, Frame.hole])

/-- Behind a quantifier that was read, its body starts. -/
theorem body {q : Quantifier} {x : String} {a : Option String} (h : Opened fs ms)
    (hfs : Admits 3 fs) (hx : isName x) (ha : ∀ s ∈ a, isName s) :
    Holds ⟨.operand, .body q x a :: fs⟩
      (ms ++ .quant q :: .name x :: (annotationLexemes a ++ [.dot])) :=
  operand (h.body hfs hx ha) (by simp [Admits, Frame.hole])

/-- A closing bracket completes a group or an application. -/
theorem rpar (h : Read 5 false p fs ls) (hstep : step ⟨.after p, fs⟩ .rpar = some r') :
    Holds r' (ls ++ [.rpar]) := by
  simp only [step] at hstep
  split at hstep
  · rename_i q gs hc
    cases hstep
    obtain ⟨ms, t, ho, ht, hg, rfl, rfl⟩ := h.close hc
    cases ho with
    | @group _ ms ho =>
      have hgroup := ho.read (b := false) (.application (.group ht)) hg
      show Read 5 false t.phrase gs _
      simpa [Derivation.lexemes, Derivation.phrase] using hgroup
  · rename_i q f gs hc
    cases hstep
    obtain ⟨ms, t, ho, ht, hg, rfl, rfl⟩ := h.close hc
    cases ho with
    | @argument _ ms f as ho hf hgf has =>
      -- only now it is known whether there is one argument or several
      obtain ⟨happ, hgapp⟩ := Derivation.derives_applied hf hgf has ht hg
      have happlied := ho.read (b := false) happ hgapp
      rw [Derivation.lexemes_applied, Derivation.phrase_applied] at happlied
      show Read 5 false (.app _ t.phrase) gs _
      simpa using happlied
  · cases hstep

/-- A comma completes an argument. -/
theorem comma (h : Read 5 false p fs ls) (hstep : step ⟨.after p, fs⟩ .comma = some r') :
    Holds r' (ls ++ [.comma]) := by
  simp only [step] at hstep
  split at hstep
  · rename_i q f gs hc
    cases hstep
    obtain ⟨ms, t, ho, ht, hg, rfl, rfl⟩ := h.close hc
    cases ho with
    | @argument _ ms f as ho hf hgf has =>
      have has' : ∀ a ∈ as ++ [t], Derives .implication a ∧ a.greedy = true := by
        rw [List.forall_mem_append, List.forall_mem_singleton]
        exact ⟨has, ht, hg⟩
      have hargument := ho.argument hf hgf has'
      have hholds := operand hargument (by simp [Admits, Frame.hole])
      simpa using hholds
  · cases hstep

/-- A connective opens its right side. -/
theorem binary {op : Connective} (h : Read 5 false p fs ls)
    (hstep : step ⟨.after p, fs⟩ (.binary op) = some r') : Holds r' (ls ++ [.binary op]) := by
  rw [step_connective] at hstep
  split at hstep
  · cases hstep
  · rename_i hne
    cases hstep
    have hopened := h.opened_right op fun he => by simpa [he] using hne
    by_cases hop : op = .eq
    · subst hop
      exact hopened
    · rw [if_neg hop]
      refine operand hopened fun f hf => ?_
      obtain rfl : Frame.right op _ = f := by simpa using hf
      cases op with
      | eq => exact absurd rfl hop
      | _ => simp [Frame.hole, rightGrade, grade]

/-- **One lexeme keeps the invariant.** -/
theorem step {l : Lexeme} (h : Holds r ls) (hl : ∀ s ∈ l.names, isName s)
    (hstep : r.step l = some r') : Holds r' (ls ++ [l]) := by
  obtain ⟨c, fs⟩ := r
  cases c with
  | operand =>
    obtain ⟨ms, ho, hfs, -, hls⟩ := h
    obtain rfl : ms = ls := by simpa [Cursor.lexemes] using hls
    cases l with
    | name s => cases hstep; exact name ho (hl s (by simp [Lexeme.names]))
    | lpar => cases hstep; exact lpar ho
    | not => cases hstep; exact operand (ho.not hfs) (by simp [Admits, Frame.hole])
    | quant q =>
      cases hstep
      exact ⟨ms, ho, hfs, by simp [Cursor.lexemes, Lexeme.names], rfl⟩
    | _ => cases hstep
  | side =>
    have ho : Opened fs ls := h
    cases l with
    | name s => cases hstep; exact name ho (hl s (by simp [Lexeme.names]))
    | lpar => cases hstep; exact lpar ho
    | _ => cases hstep
  | binder q =>
    obtain ⟨ms, ho, hfs, -, rfl⟩ := h
    cases l with
    | name x =>
      cases hstep
      have hx := hl x (by simp [Lexeme.names])
      exact ⟨ms, ho, hfs, by simpa [Cursor.lexemes, Lexeme.names] using hx,
        by simp [Cursor.lexemes]⟩
    | _ => cases hstep
  | bound q x =>
    obtain ⟨ms, ho, hfs, hnames, rfl⟩ := h
    have hx : isName x := isName_of_cursor hnames (by simp [Cursor.lexemes])
    cases l with
    | colon =>
      cases hstep
      exact ⟨ms, ho, hfs, by simpa [Cursor.lexemes, Lexeme.names] using hx,
        by simp [Cursor.lexemes]⟩
    | dot =>
      cases hstep
      have hbody := body (q := q) (a := none) ho hfs hx (by simp)
      simpa [Cursor.lexemes, annotationLexemes] using hbody
    | _ => cases hstep
  | colon q x =>
    obtain ⟨ms, ho, hfs, hnames, rfl⟩ := h
    have hx : isName x := isName_of_cursor hnames (by simp [Cursor.lexemes])
    cases l with
    | name a =>
      cases hstep
      have ha := hl a (by simp [Lexeme.names])
      exact ⟨ms, ho, hfs, by simpa [Cursor.lexemes, Lexeme.names] using ⟨hx, ha⟩,
        by simp [Cursor.lexemes]⟩
    | _ => cases hstep
  | annotated q x a =>
    obtain ⟨ms, ho, hfs, hnames, rfl⟩ := h
    have hx : isName x := isName_of_cursor hnames (by simp [Cursor.lexemes])
    have ha : isName a := isName_of_cursor hnames (by simp [Cursor.lexemes])
    cases l with
    | dot =>
      cases hstep
      have hbody := body (q := q) (a := some a) ho hfs hx (by simpa using ha)
      simpa [Cursor.lexemes, annotationLexemes] using hbody
    | _ => cases hstep
  | after p =>
    have hread : Read 5 false p fs ls := h
    cases l with
    | name s =>
      cases hstep
      obtain ⟨ms, t, ho, -, ht, hg, -, rfl, rfl⟩ := hread
      have hs := hl s (by simp [Lexeme.names])
      have happly := ho.read (b := false) (.apply ht (.symbol hs)) (by simp [Derivation.greedy, hg])
      show Read 5 false (.app t.phrase (.name s)) fs _
      simpa [Derivation.lexemes, Derivation.phrase] using happly
    | lpar =>
      cases hstep
      obtain ⟨ms, t, ho, -, ht, hg, -, rfl, rfl⟩ := hread
      have hargument := @Opened.argument fs ms t [] ho ht hg (by simp)
      have hholds := operand hargument (by simp [Admits, Frame.hole])
      simpa using hholds
    | binary op => exact binary hread hstep
    | rpar => exact rpar hread hstep
    | comma => exact comma hread hstep
    | _ => cases hstep

/-- Lexemes keep the invariant. -/
theorem run (h : Holds r ms) (hls : ∀ l ∈ ls, ∀ s ∈ l.names, isName s)
    (hrun : r.run ls = some r') : Holds r' (ms ++ ls) := by
  induction ls generalizing r ms with
  | nil =>
    cases hrun
    simpa using h
  | cons l ls ih =>
    rw [List.forall_mem_cons] at hls
    obtain ⟨r₁, hstep, hrest⟩ := Option.bind_eq_some_iff.1 hrun
    have hall := ih (h.step hls.1 hstep) hls.2 hrest
    simpa using hall

theorem start : Holds .start [] :=
  operand .nil (by simp [Admits])

/-- Where a text may end, a derivation is complete. -/
theorem exists_derivation (h : Holds r ls) (hfinish : r.finish? = some p) :
    ∃ t, Derives .start t ∧ t.greedy = true ∧ t.lexemes = ls ∧ t.phrase = p := by
  obtain ⟨c, fs⟩ := r
  cases c with
  | after q =>
    have hread : Read 5 false q fs ls := h
    simp only [finish?] at hfinish
    split at hfinish
    · rename_i q' hc
      cases hfinish
      obtain ⟨ms, t, ho, ht, hg, rfl, rfl⟩ := hread.close hc
      cases ho
      exact ⟨t, ht, hg, rfl, rfl⟩
    · cases hfinish
  | _ => cases hfinish

end Reader.Holds

theorem readPhrase_eq_ok_iff_run :
    readPhrase ls = .ok p ↔ ∃ r, Reader.start.run ls = some r ∧ r.finish? = some p := by
  simp only [← Reader.feed_eq_ok_iff, readPhrase]
  cases Reader.start.feed ls with
  | error n => simp
  | ok r => cases hr : r.finish? <;> simp [hr]

/-- **A phrase that was read is that of a greedy derivation.** -/
theorem exists_derivation_of_readPhrase (hls : ∀ l ∈ ls, ∀ s ∈ l.names, isName s)
    (h : readPhrase ls = .ok p) :
    ∃ t, Derives .start t ∧ t.greedy = true ∧ t.lexemes = ls ∧ t.phrase = p := by
  obtain ⟨r, hrun, hfinish⟩ := readPhrase_eq_ok_iff_run.1 h
  have hholds := Reader.Holds.start.run hls hrun
  exact hholds.exists_derivation hfinish

end Refutation.Reading
