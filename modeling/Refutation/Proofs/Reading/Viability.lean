import Refutation.Proofs.Reading.Recognition

/-!
# Lexemes that can be completed

A reader refuses a lexeme only if no formula goes on with it. Two facts show this. The
lexemes of every derivation, greedy or not, lead a reader from the place where a phrase may
start to a place behind a phrase, and what they leave open lies inside the innermost bracket
(`Derives.accepted`). And wherever a reader is, names, dots and closing brackets lead it to
the end of a formula (`Reader.completes`).

* `readPhrase_eq_ok_iff`: **the lexemes of a formula are read, and what is read is the phrase
  of their greedy derivation.**
* `viable_iff`: **a reader goes on as long as the lexemes can be completed.**
* `viable_of_readPhrase_eq_error`: **the lexemes before a fault can be completed, and with
  the one at fault they cannot.**
-/

namespace Refutation.Reading

/-- Some formula starts with the lexemes. -/
def Viable (ls : List Lexeme) : Prop :=
  ∃ ms, Derivable (ls ++ ms)

/-- The frames from the innermost bracket on. -/
def outer (fs : List Frame) : List Frame :=
  fs.dropWhile fun f => !f.isBracket

variable {fs gs : List Frame} {ls ms : List Lexeme} {p : Phrase}

theorem outer_cons {f : Frame} (hf : f.isBracket = false) (fs : List Frame) :
    outer (f :: fs) = outer fs :=
  List.dropWhile_cons_of_pos (by simp [hf])

theorem outer_cons_of_isBracket {f : Frame} (hf : f.isBracket = true) (fs : List Frame) :
    outer (f :: fs) = f :: fs :=
  List.dropWhile_cons_of_neg (by simp [hf])

theorem isBracket_of_outer {g : Frame} (h : outer fs = g :: gs) : g.isBracket = true := by
  have hhead : g ∈ (outer fs).head? := by rw [h]; rfl
  simpa using of_mem_head?_dropWhile hhead

theorem length_lt_of_outer {g : Frame} (h : outer fs = g :: gs) : gs.length < fs.length := by
  have hle : (outer fs).length ≤ fs.length := (List.dropWhile_sublist _).length_le
  rw [h, List.length_cons] at hle
  omega

/-- A connective closes no bracket. -/
theorem outer_settle (op : Connective) (p : Phrase) (fs : List Frame) :
    outer (settle (·.endsBefore op) p fs).2 = outer fs := by
  rw [settle_snd]
  induction fs with
  | nil => rfl
  | cons f fs ih =>
    rw [List.dropWhile_cons]
    split
    · rename_i hf
      have hbracket : f.isBracket = false := by cases f <;> first | rfl | cases hf
      rw [ih, outer_cons hbracket]
    · rfl

namespace Reader

variable {r r' : Reader}

theorem run_append (r : Reader) (ls ms : List Lexeme) :
    r.run (ls ++ ms) = (r.run ls).bind (run · ms) := by
  induction ls generalizing r with
  | nil => rfl
  | cons l ls ih =>
    rw [List.cons_append, run, run, Option.bind_assoc]
    exact congrArg _ (funext ih)

theorem run_append_of_run (h : r.run ls = some r') (ms : List Lexeme) :
    r.run (ls ++ ms) = r'.run ms := by
  rw [run_append, h, Option.bind_some]

theorem close_eq (p : Phrase) (fs : List Frame) : close p fs = ((close p fs).1, outer fs) :=
  Prod.ext rfl (settle_snd p fs)

/-- A closing bracket ends the innermost bracket. -/
theorem exists_step_rpar {g : Frame} (p : Phrase) (h : outer fs = g :: gs) :
    ∃ q, step ⟨.after p, fs⟩ .rpar = some ⟨.after q, gs⟩ := by
  have hbracket := isBracket_of_outer h
  simp only [step]
  rw [close_eq, h]
  cases g with
  | group => exact ⟨_, rfl⟩
  | argument f => exact ⟨_, rfl⟩
  | _ => cases hbracket

/-- A comma starts the next argument. -/
theorem exists_step_comma {f : Phrase} (p : Phrase) (h : outer fs = .argument f :: gs) :
    ∃ g, step ⟨.after p, fs⟩ .comma = some ⟨.operand, .argument g :: gs⟩ := by
  simp only [step]
  rw [close_eq, h]
  exact ⟨_, rfl⟩

theorem exists_finish? (p : Phrase) (h : outer fs = []) :
    ∃ q, finish? ⟨.after p, fs⟩ = some q := by
  simp only [finish?]
  rw [close_eq, h]
  exact ⟨_, rfl⟩

end Reader

/-! ## Every derivation is accepted -/

/-- Where an atom may stand. -/
def Cursor.takesAtom : Cursor → Bool
  | .operand => true
  | .side => true
  | .after _ => true
  | _ => false

/-- Read where a phrase may start, a derivation leads behind a phrase. Frames may be left open
inside the innermost bracket. -/
def Leads (t : Derivation) : Prop :=
  ∀ fs, Reader.inEquality fs = false →
    ∃ p fs', Reader.run ⟨.operand, fs⟩ t.lexemes = some ⟨.after p, fs'⟩ ∧ outer fs' = outer fs

/-- What reading a derivation comes to. An atom and an application leave nothing open, and
further arguments only the bracket they stand in. -/
def Accepted : Category → Derivation → Prop
  | .atomic, t => ∀ c fs, c.takesAtom = true →
      ∃ p, Reader.run ⟨c, fs⟩ t.lexemes = some ⟨.after p, fs⟩
  | .application, t => ∀ c fs, c = .operand ∨ c = .side →
      ∃ p, Reader.run ⟨c, fs⟩ t.lexemes = some ⟨.after p, fs⟩
  | .arguments, t => ∀ p f fs gs, outer fs = .argument f :: gs →
      ∃ q g fs', Reader.run ⟨.after p, fs⟩ t.lexemes = some ⟨.after q, fs'⟩ ∧
        outer fs' = .argument g :: gs
  | _, t => Leads t

variable {t l r : Derivation} {n : Category}

/-- The connectives other than equality follow any phrase. -/
theorem leads_binary {op : Connective} (hop : op ≠ .eq) (hl : Leads l) (hr : Leads r) :
    Leads (.binary op l r) := by
  intro fs hfs
  obtain ⟨p, fs₁, hleft, houter₁⟩ := hl fs hfs
  have hstep := Reader.step_connective op p fs₁
  rw [if_neg (by simp [hop]), if_neg hop] at hstep
  have hin : ∀ l gs, Reader.inEquality (.right op l :: gs) = false := by
    intro l gs
    cases op with
    | eq => exact absurd rfl hop
    | _ => rfl
  obtain ⟨q, fs₂, hright, houter₂⟩ := hr _ (hin _ (settle (·.endsBefore op) p fs₁).2)
  refine ⟨q, fs₂, ?_, ?_⟩
  · rw [Derivation.lexemes, Reader.run_append_of_run hleft, Reader.run_cons_of_step hstep, hright]
  · have hright : (Frame.right op (settle (·.endsBefore op) p fs₁).1).isBracket = false := rfl
    rw [houter₂, outer_cons hright, outer_settle, houter₁]

/-- What is in brackets is accepted behind the opening bracket, up to the closing one. -/
theorem Leads.brackets {g : Frame} (ht : Leads t) (hg : g.isBracket = true) (fs : List Frame) :
    ∃ p fs', Reader.run ⟨.operand, g :: fs⟩ t.lexemes = some ⟨.after p, fs'⟩ ∧
      outer fs' = g :: fs := by
  have hfs : Reader.inEquality (g :: fs) = false := by
    cases g with
    | right op l => cases hg
    | _ => rfl
  obtain ⟨p, fs', hrun, houter⟩ := ht (g :: fs) hfs
  exact ⟨p, fs', hrun, houter.trans (outer_cons_of_isBracket hg fs)⟩

/-- **The lexemes of a derivation lead behind a phrase.** -/
theorem Derives.accepted (h : Derives n t) : Accepted n t := by
  induction h with
  | implication _ ih | disjunction _ ih | conjunction _ ih | quantified _ ih | unary _ ih =>
    exact ih
  | implies _ _ ihl ihr | or _ _ ihl ihr | and _ _ ihl ihr =>
    exact leads_binary (by decide) ihl ihr
  | @not b _ ih =>
    intro fs _
    obtain ⟨p, fs', hrun, houter⟩ := ih (.not :: fs) rfl
    exact ⟨p, fs', hrun, houter.trans (outer_cons rfl fs)⟩
  | @quant q x a b _ _ _ ih =>
    intro fs _
    obtain ⟨p, fs', hrun, houter⟩ := ih (.body q x a :: fs) rfl
    refine ⟨p, fs', ?_, houter.trans (outer_cons rfl fs)⟩
    cases a with
    | none => exact hrun
    | some s => exact hrun
  | equality _ ih =>
    intro fs _
    obtain ⟨p, hrun⟩ := ih .operand fs (Or.inl rfl)
    exact ⟨p, fs, hrun, rfl⟩
  | @equals l r _ _ ihl ihr =>
    intro fs hfs
    obtain ⟨p, hleft⟩ := ihl .operand fs (Or.inl rfl)
    obtain ⟨q, hright⟩ := ihr .side (.right .eq p :: fs) (Or.inr rfl)
    have hstep : Reader.step ⟨.after p, fs⟩ (.binary .eq) = some ⟨.side, .right .eq p :: fs⟩ := by
      simp [Reader.step, hfs]
    refine ⟨q, .right .eq p :: fs, ?_, outer_cons rfl fs⟩
    rw [Derivation.lexemes, Reader.run_append_of_run hleft, Reader.run_cons_of_step hstep, hright]
  | application _ ih =>
    intro c fs hc
    exact ih c fs (by rcases hc with rfl | rfl <;> rfl)
  | @apply f a _ _ ihf iha =>
    intro c fs hc
    obtain ⟨p, hfn⟩ := ihf c fs hc
    obtain ⟨q, harg⟩ := iha (.after p) fs rfl
    exact ⟨q, by rw [Derivation.lexemes, Reader.run_append_of_run hfn, harg]⟩
  | @applyMany f a m _ _ _ ihf iha ihm =>
    intro c fs hc
    obtain ⟨p, hfn⟩ := ihf c fs hc
    obtain ⟨q, fs₁, hfirst, houter₁⟩ := Leads.brackets (g := .argument p) iha rfl fs
    obtain ⟨q', g, fs₂, hmore, houter₂⟩ := ihm q p fs₁ fs houter₁
    obtain ⟨p', hstep⟩ := Reader.exists_step_rpar q' houter₂
    have hopen : Reader.step ⟨.after p, fs⟩ .lpar = some ⟨.operand, .argument p :: fs⟩ := rfl
    refine ⟨p', ?_⟩
    rw [Derivation.lexemes, Reader.run_append_of_run hfn, Reader.run_cons_of_step hopen,
      Reader.run_append_of_run hfirst, Reader.run_append_of_run hmore,
      Reader.run_cons_of_step hstep, Reader.run]
  | @argument a _ ih =>
    intro p f fs gs houter
    obtain ⟨g, hcomma⟩ := Reader.exists_step_comma p houter
    obtain ⟨q, fs', hrun, houter'⟩ := Leads.brackets (g := .argument g) ih rfl gs
    exact ⟨q, g, fs', by rw [Derivation.lexemes, Reader.run_cons_of_step hcomma, hrun], houter'⟩
  | @arguments a m _ _ iha ihm =>
    intro p f fs gs houter
    obtain ⟨g, hcomma⟩ := Reader.exists_step_comma p houter
    obtain ⟨q, fs', hrun, houter'⟩ := Leads.brackets (g := .argument g) iha rfl gs
    obtain ⟨q', g', fs'', hmore, houter''⟩ := ihm q g fs' gs houter'
    refine ⟨q', g', fs'', ?_, houter''⟩
    rw [Derivation.lexemes, Reader.run_cons_of_step hcomma, Reader.run_append_of_run hrun, hmore]
  | symbol hs =>
    intro c fs hc
    cases c with
    | operand => exact ⟨_, rfl⟩
    | side => exact ⟨_, rfl⟩
    | after p => exact ⟨_, rfl⟩
    | _ => cases hc
  | @group t _ ih =>
    intro c fs hc
    -- behind an application the bracket opens an argument
    have hopen : ∃ g : Frame, g.isBracket = true ∧
        Reader.step ⟨c, fs⟩ .lpar = some ⟨.operand, g :: fs⟩ := by
      cases c with
      | operand => exact ⟨.group, rfl, rfl⟩
      | side => exact ⟨.group, rfl, rfl⟩
      | after p => exact ⟨.argument p, rfl, rfl⟩
      | _ => cases hc
    obtain ⟨g, hg, hopen⟩ := hopen
    obtain ⟨p, fs', hrun, houter⟩ := Leads.brackets ih hg fs
    obtain ⟨q, hclose⟩ := Reader.exists_step_rpar p houter
    refine ⟨q, ?_⟩
    rw [Derivation.lexemes, Reader.run_cons_of_step hopen, Reader.run_append_of_run hrun,
      Reader.run_cons_of_step hclose, Reader.run]

theorem Derives.exists_run (h : Derives .start t) :
    ∃ r p, Reader.start.run t.lexemes = some r ∧ r.finish? = some p := by
  obtain ⟨p, fs, hrun, houter⟩ := h.accepted [] rfl
  obtain ⟨q, hfinish⟩ := Reader.exists_finish? p houter
  exact ⟨_, q, hrun, hfinish⟩

/-- **The lexemes of a formula are read, and what is read is the phrase of their greedy
derivation.** -/
theorem readPhrase_eq_ok_iff (hls : ∀ l ∈ ls, ∀ s ∈ l.names, isName s) :
    readPhrase ls = .ok p ↔
      ∃ t, Derives .start t ∧ t.greedy = true ∧ t.lexemes = ls ∧ t.phrase = p := by
  refine ⟨exists_derivation_of_readPhrase hls, ?_⟩
  rintro ⟨t, ht, hg, rfl, rfl⟩
  obtain ⟨r, q, hrun, hfinish⟩ := ht.exists_run
  have hread : readPhrase t.lexemes = .ok q := readPhrase_eq_ok_iff_run.2 ⟨r, hrun, hfinish⟩
  obtain ⟨t', ht', hg', he, hp⟩ := exists_derivation_of_readPhrase hls hread
  rw [hread, ← hp, ht'.eq_of_lexemes_eq ht hg' hg he]

/-! ## Every reader can be led to the end of a formula -/

namespace Reader

/-- Some lexemes lead to the end of a formula. -/
def Completes (r : Reader) : Prop :=
  ∃ ls r' p, r.run ls = some r' ∧ r'.finish? = some p ∧ ∀ l ∈ ls, ∀ s ∈ l.names, isName s

variable {r r' : Reader}

theorem Completes.of_step {l : Lexeme} (h : r'.Completes) (hstep : r.step l = some r')
    (hl : ∀ s ∈ l.names, isName s) : r.Completes := by
  obtain ⟨ls, r₁, p, hrun, hfinish, hls⟩ := h
  exact ⟨l :: ls, r₁, p, (run_cons_of_step hstep ls).trans hrun, hfinish,
    List.forall_mem_cons.2 ⟨hl, hls⟩⟩

/-- Behind a phrase, the open brackets are closed one by one. -/
theorem completes_after (p : Phrase) (fs : List Frame) : Completes ⟨.after p, fs⟩ := by
  cases houter : outer fs with
  | nil =>
    obtain ⟨q, hfinish⟩ := exists_finish? p houter
    exact ⟨[], _, q, rfl, hfinish, by simp⟩
  | cons g gs =>
    have hlt := length_lt_of_outer houter
    obtain ⟨q, hstep⟩ := exists_step_rpar p houter
    exact (completes_after q gs).of_step hstep (by simp [Lexeme.names])
termination_by fs.length

theorem isName_of_mem_names_x : ∀ s ∈ (Lexeme.name "x").names, isName s := by
  simp [Lexeme.names]; decide

theorem completes_operand (fs : List Frame) : Completes ⟨.operand, fs⟩ :=
  (completes_after (.name "x") fs).of_step rfl isName_of_mem_names_x

/-- **A reader can be led to the end of a formula, wherever it is.** -/
theorem completes (r : Reader) : r.Completes := by
  obtain ⟨c, fs⟩ := r
  have hbound : ∀ q x, Completes ⟨.bound q x, fs⟩ := fun q x =>
    (completes_operand _).of_step (l := .dot) rfl (by simp [Lexeme.names])
  have hannotated : ∀ q x a, Completes ⟨.annotated q x a, fs⟩ := fun q x a =>
    (completes_operand _).of_step (l := .dot) rfl (by simp [Lexeme.names])
  cases c with
  | operand => exact completes_operand fs
  | side => exact (completes_after (.name "x") fs).of_step rfl isName_of_mem_names_x
  | binder q => exact (hbound q "x").of_step rfl isName_of_mem_names_x
  | bound q x => exact hbound q x
  | colon q x => exact (hannotated q x "x").of_step rfl isName_of_mem_names_x
  | annotated q x a => exact hannotated q x a
  | after p => exact completes_after p fs

/-- Where a fault is. -/
theorem exists_of_feed_eq_error {n : Nat} (h : r.feed ls = .error n) :
    ∃ l r', ls[n]? = some l ∧ r.run (ls.take n) = some r' ∧ r'.step l = none := by
  induction ls generalizing r n with
  | nil => cases h
  | cons l ls ih =>
    rw [feed] at h
    split at h
    · rename_i hstep
      cases h
      exact ⟨l, r, rfl, rfl, hstep⟩
    · rename_i r₁ hstep
      split at h
      · cases h
      · rename_i m hfeed
        cases h
        obtain ⟨k, r', hk, hrun, hnone⟩ := ih hfeed
        exact ⟨k, r', by simpa using hk, (run_cons_of_step hstep _).trans hrun, hnone⟩

end Reader

/-! ## Where a reader stops -/

/-- **A reader goes on as long as the lexemes can be completed.** -/
theorem viable_iff (hls : ∀ l ∈ ls, ∀ s ∈ l.names, isName s) :
    Viable ls ↔ ∃ r, Reader.start.run ls = some r := by
  constructor
  · -- a reader that gets through the whole gets through its start
    rintro ⟨ms, t, ht, he⟩
    obtain ⟨r, p, hrun, -⟩ := ht.exists_run
    rw [he, Reader.run_append] at hrun
    obtain ⟨r', hr', -⟩ := Option.bind_eq_some_iff.1 hrun
    exact ⟨r', hr'⟩
  · -- what leads the reader to the end is what the lexemes lack
    rintro ⟨r, hrun⟩
    obtain ⟨ms, r', p, hrest, hfinish, hms⟩ := r.completes
    have hall : ∀ l ∈ ls ++ ms, ∀ s ∈ l.names, isName s := List.forall_mem_append.2 ⟨hls, hms⟩
    have hread : readPhrase (ls ++ ms) = .ok p :=
      readPhrase_eq_ok_iff_run.2 ⟨r', (Reader.run_append_of_run hrun ms).trans hrest, hfinish⟩
    obtain ⟨t, ht, -, he, -⟩ := exists_derivation_of_readPhrase hall hread
    exact ⟨ms, t, ht, he⟩

theorem derivable_iff (hls : ∀ l ∈ ls, ∀ s ∈ l.names, isName s) :
    Derivable ls ↔ ∃ p, readPhrase ls = .ok p := by
  constructor
  · rintro ⟨t, ht, rfl⟩
    obtain ⟨r, p, hrun, hfinish⟩ := ht.exists_run
    exact ⟨p, readPhrase_eq_ok_iff_run.2 ⟨r, hrun, hfinish⟩⟩
  · rintro ⟨p, hp⟩
    obtain ⟨t, ht, -, he, -⟩ := exists_derivation_of_readPhrase hls hp
    exact ⟨t, ht, he⟩

/-- **The lexemes before a fault can be completed, and with the one at fault they
cannot**; at the end they are not complete. -/
theorem viable_of_readPhrase_eq_error {n : Nat} (hls : ∀ l ∈ ls, ∀ s ∈ l.names, isName s)
    (h : readPhrase ls = .error n) : n ≤ ls.length ∧ Viable (ls.take n) ∧
      (∀ l, ls[n]? = some l → ¬Viable (ls.take n ++ [l])) ∧ (n = ls.length → ¬Derivable ls) := by
  have hderivable : ¬Derivable ls := by
    rw [derivable_iff hls, h]
    simp
  have htake : ∀ l ∈ ls.take n, ∀ s ∈ l.names, isName s := fun l hl =>
    hls l (List.mem_of_mem_take hl)
  unfold readPhrase at h
  split at h
  · rename_i m hfeed
    cases h
    obtain ⟨l, r, hl, hrun, hstep⟩ := Reader.exists_of_feed_eq_error hfeed
    obtain ⟨hlt, rfl⟩ := List.getElem?_eq_some_iff.1 hl
    refine ⟨Nat.le_of_lt hlt, (viable_iff htake).2 ⟨r, hrun⟩, fun k hk => ?_, fun _ => hderivable⟩
    obtain rfl : ls[n] = k := Option.some.inj (hl.symm.trans hk)
    rw [viable_iff (by
      rw [List.forall_mem_append, List.forall_mem_singleton]
      exact ⟨htake, hls _ (List.getElem_mem hlt)⟩)]
    rintro ⟨r', hr'⟩
    rw [Reader.run_append_of_run hrun, Reader.run, hstep] at hr'
    cases hr'
  · rename_i r hfeed
    split at h
    · cases h
    · cases h
      rw [List.take_length] at htake ⊢
      refine ⟨Nat.le_refl _, (viable_iff hls).2 ⟨r, Reader.feed_eq_ok_iff.1 hfeed⟩, ?_,
        fun _ => hderivable⟩
      intro l hl
      simp at hl

end Refutation.Reading
