import Refutation.Proofs.Reading.Lexemes

/-!
# Reading what was printed

What a reader makes of the lexemes of a formula, for every formula, also where it is not
the formula itself. A negation or a quantifier has no brackets around it, so when its last
lexeme has been read it is still open: `Formula.opened` are the frames left open and
`Formula.reread` is the phrase inside them. A connective that follows closes negations,
but the body of a quantifier goes on; a name that follows is one more argument.

* `Reader.run_lexemes`: **the lexemes of a formula lead a reader from the place where they
  start to what `reread` says**, or to a fault where it is `none`.
* `readPhrase_lexemes_eq_ok_iff`: the phrase of the lexemes of a formula.
-/

namespace Refutation

open Reading

namespace Reading

/-- Fill frames, the innermost first. -/
def fillAll (p : Phrase) (fs : List Frame) : Phrase :=
  fs.foldl (fun q f => f.fill q) p

theorem fillAll_nil (p : Phrase) : fillAll p [] = p := rfl

theorem fillAll_cons (p : Phrase) (f : Frame) (fs : List Frame) :
    fillAll p (f :: fs) = fillAll (f.fill p) fs := rfl

theorem fillAll_append (p : Phrase) (fs gs : List Frame) :
    fillAll p (fs ++ gs) = fillAll (fillAll p fs) gs := List.foldl_append

/-! ## Settling frames -/

variable {done : Frame → Bool}

theorem settle_of_forall {fs : List Frame} (h : ∀ f ∈ fs, done f = true) (p : Phrase) :
    settle done p fs = (fillAll p fs, []) := by
  induction fs generalizing p with
  | nil => rfl
  | cons f fs ih =>
    rw [List.forall_mem_cons] at h
    rw [settle, if_pos h.1, ih h.2]
    rfl

/-- Settling stops at a frame that is not complete, whatever lies outside of it. -/
theorem settle_append_cons {g : Frame} (hg : done g = false) (p : Phrase) (fs gs : List Frame) :
    settle done p (fs ++ g :: gs) =
      ((settle done p fs).1, (settle done p fs).2 ++ g :: gs) := by
  induction fs generalizing p with
  | nil => simp [settle, hg]
  | cons f fs ih =>
    rw [List.cons_append, settle, settle]
    split
    · exact ih (f.fill p)
    · rfl

theorem mem_of_mem_settle {p : Phrase} {fs : List Frame} {f : Frame}
    (h : f ∈ (settle done p fs).2) : f ∈ fs := by
  induction fs generalizing p with
  | nil => exact h
  | cons g gs ih =>
    unfold settle at h
    split at h
    · exact List.mem_cons_of_mem _ (ih h)
    · exact h

/-! ## Steps of a reader -/

/-- The place where a phrase starts, or that behind an application, where an argument of it
may stand. -/
def Cursor.behind : Option Phrase → Cursor
  | none => .operand
  | some p => .after p

/-- What a bracket opens at this place. -/
def Frame.behind : Option Phrase → Frame
  | none => .group
  | some p => .argument p

theorem Frame.isBracket_behind (o : Option Phrase) : (Frame.behind o).isBracket = true := by
  cases o <;> rfl

namespace Reader

variable {o : Option Phrase} {p : Phrase} {fs os : List Frame} {ls : List Lexeme}

/-- Read lexemes, without telling where a fault is. -/
def run (r : Reader) : List Lexeme → Option Reader
  | [] => some r
  | l :: ls => (r.step l).bind (run · ls)

theorem feed_eq_ok_iff {r r' : Reader} : r.feed ls = .ok r' ↔ r.run ls = some r' := by
  induction ls generalizing r with
  | nil => simp [feed, run]
  | cons l ls ih =>
    unfold feed run
    cases r.step l with
    | none => simp
    | some r₁ =>
      simp only [Option.bind_some, ← ih]
      cases r₁.feed ls with
      | error n => simp
      | ok r₂ => simp

theorem run_cons_of_step {r r' : Reader} {l : Lexeme} (h : r.step l = some r')
    (ls : List Lexeme) : r.run (l :: ls) = r'.run ls := by
  rw [run, h, Option.bind_some]

theorem step_name (o : Option Phrase) (fs : List Frame) (n : String) :
    step ⟨.behind o, fs⟩ (.name n) = some ⟨.after ((Frame.behind o).fill (.name n)), fs⟩ := by
  cases o <;> rfl

theorem step_lpar (o : Option Phrase) (fs : List Frame) :
    step ⟨.behind o, fs⟩ .lpar = some ⟨.operand, .behind o :: fs⟩ := by
  cases o <;> rfl

theorem close_append_cons {g : Frame} (hos : ∀ f ∈ os, f.isBracket = false)
    (hg : g.isBracket = true) : close p (os ++ g :: fs) = (fillAll p os, g :: fs) := by
  rw [close, settle_append_cons (by simp [hg]), settle_of_forall (by simpa using hos)]
  rfl

/-- A closing bracket ends all that was opened since its opening bracket. -/
theorem step_rpar {g : Frame} (p : Phrase) (fs : List Frame)
    (hos : ∀ f ∈ os, f.isBracket = false) (hg : g.isBracket = true) :
    step ⟨.after p, os ++ g :: fs⟩ .rpar = some ⟨.after (g.fill (fillAll p os)), fs⟩ := by
  simp only [step, close_append_cons hos hg]
  cases g with
  | group => rfl
  | argument f => rfl
  | _ => cases hg

theorem step_comma {f : Phrase} (hos : ∀ f ∈ os, f.isBracket = false) :
    step ⟨.after p, os ++ .argument f :: fs⟩ .comma =
      some ⟨.operand, .argument (.app f (fillAll p os)) :: fs⟩ := by
  have hg : (Frame.argument f).isBracket = true := rfl
  simp only [step, close_append_cons hos hg]

end Reader

end Reading

namespace Formula

/-- A negation or a quantifier: no bracket stands at its end, or only that of a body. -/
def isPrefixed : Formula → Bool
  | .not _ => true
  | .quant _ _ _ _ => true
  | _ => false

/-- The frames that are still open when the lexemes of a formula have been read. -/
def opened : Formula → List Frame
  | .not b => b.opened ++ [.not]
  | .quant q x τ _ => [.body q x (some τ.text)]
  | _ => []

/-- What is read last, inside the open frames, when the lexemes of a formula are read at
the start of a phrase or behind an application. -/
def reread : Formula → Option Phrase → Option Phrase
  | .var n _, o => some ((Frame.behind o).fill (.name n))
  | .const n _, o => some ((Frame.behind o).fill (.name n))
  | .app f a, o =>
    if f.head.symbol?.isSome then do
      -- behind an application the symbol is an argument, and its own arguments go to both
      let fn ← f.reread o
      let arg ← a.reread none
      return .app fn (fillAll arg a.opened)
    else do
      -- the argument is taken before what the function left open is closed
      let fn ← f.reread none
      let p ← a.reread (some fn)
      return (Frame.behind o).fill (fillAll p f.opened)
  | .not b, o => if o.isSome then none else b.reread none
  | .binary op l r, o =>
    if op = .eq ∧ r.isPrefixed then none
    else do
      let left ← l.reread none
      let right ← r.reread none
      -- what the connective does not close goes on over it
      let (p, fs) := settle (·.endsBefore op) left l.opened
      return (Frame.behind o).fill (fillAll (.binary op p (fillAll right r.opened)) fs)
  | .quant _ _ _ b, o =>
    if o.isSome then none
    else do
      let body ← b.reread none
      return fillAll body b.opened

/-- Only negations and bodies stay open. -/
theorem eq_of_mem_opened {f : Formula} {g : Frame} (h : g ∈ f.opened) :
    g = .not ∨ ∃ q x a, g = .body q x a := by
  induction f with
  | not b ih =>
    rw [opened, List.mem_append, List.mem_singleton] at h
    exact h.elim ih Or.inl
  | quant q x τ b _ => exact Or.inr ⟨q, x, some τ.text, List.mem_singleton.1 h⟩
  | _ => cases h

theorem isBracket_of_mem_opened {f : Formula} {g : Frame} (h : g ∈ f.opened) :
    g.isBracket = false := by
  rcases eq_of_mem_opened h with rfl | ⟨q, x, a, rfl⟩ <;> rfl

theorem endsBefore_eq_of_mem_opened {f : Formula} {g : Frame} (h : g ∈ f.opened) :
    g.endsBefore .eq = false := by
  rcases eq_of_mem_opened h with rfl | ⟨q, x, a, rfl⟩ <;> rfl

/-- An equality closes nothing. -/
theorem settle_eq_opened (f : Formula) (p : Phrase) :
    settle (·.endsBefore .eq) p f.opened = (p, f.opened) := by
  cases h : f.opened with
  | nil => rfl
  | cons g gs =>
    have hg : g.endsBefore .eq = false :=
      endsBefore_eq_of_mem_opened (f := f) (h ▸ List.mem_cons_self)
    rw [settle, if_neg (by simp [hg])]

theorem inEquality_opened (f : Formula) {g : Frame} (hg : g.isBracket = true) (fs : List Frame) :
    Reader.inEquality (f.opened ++ g :: fs) = false := by
  cases h : f.opened with
  | nil =>
    cases g with
    | right op p => cases hg
    | _ => rfl
  | cons k ks =>
    rcases eq_of_mem_opened (f := f) (h ▸ List.mem_cons_self) with rfl | ⟨q, x, a, rfl⟩ <;> rfl

theorem opened_eq_nil_iff {f : Formula} : f.opened = [] ↔ f.isPrefixed = false := by
  cases f <;> simp [opened, isPrefixed]

theorem opened_of_symbol {f : Formula} (h : f.head.symbol?.isSome) : f.opened = [] := by
  cases f with
  | not b => cases h
  | quant q x τ b => cases h
  | _ => rfl

/-- Behind an application no negation and no quantifier can be read. -/
theorem opened_of_reread {f : Formula} {c p : Phrase} (h : f.reread (some c) = some p) :
    f.opened = [] := by
  cases f with
  | not b => cases h
  | quant q x τ b => cases h
  | _ => rfl

end Formula

namespace Reading.Reader

open Formula

variable {fs : List Frame} {ls : List Lexeme}

/-- A connective behind the lexemes of its left side. -/
theorem step_binary (op : Connective) (l : Formula) (p : Phrase) {g : Frame}
    (hg : g.isBracket = true) :
    step ⟨.after p, l.opened ++ g :: fs⟩ (.binary op) =
      some ⟨if op = .eq then .side else .operand,
        .right op (settle (·.endsBefore op) p l.opened).1 ::
          ((settle (·.endsBefore op) p l.opened).2 ++ g :: fs)⟩ := by
  by_cases hop : op = .eq
  · subst hop
    simp only [step, inEquality_opened l hg, settle_eq_opened]
    rfl
  · have hends : g.endsBefore op = false := by
      cases g <;> first | rfl | cases hg
    have hsettle := settle_append_cons hends p l.opened fs
    cases op with
    | eq => exact absurd rfl hop
    | _ => simp [step, hsettle]

/-- The right side of an equality is read like the start of a phrase, if it is neither a
negation nor a quantifier. -/
theorem run_side (f : Formula) :
    run ⟨.side, fs⟩ (f.lexemes ++ ls) =
      if f.isPrefixed then none else run ⟨.operand, fs⟩ (f.lexemes ++ ls) := by
  cases f with
  | app f a =>
    cases hn : f.head.symbol? with
    | some n => rw [lexemes_app_of_symbol hn]; rfl
    | none => rw [lexemes_app_of_none hn]; rfl
  | _ => rfl

theorem run_right (op : Connective) (f : Formula) :
    run ⟨if op = .eq then .side else .operand, fs⟩ (f.lexemes ++ ls) =
      if op = .eq ∧ f.isPrefixed then none else run ⟨.operand, fs⟩ (f.lexemes ++ ls) := by
  by_cases hop : op = .eq
  · simp only [hop, if_true, true_and, run_side]
  · simp only [hop, if_false, false_and]

/-- A reader makes of the lexemes of a formula what `reread` says. -/
def Reads (f : Formula) : Prop :=
  ∀ o fs ls, run ⟨.behind o, fs⟩ (f.lexemes ++ ls) =
    (f.reread o).bind fun p => run ⟨.after p, f.opened ++ fs⟩ ls

/-- A reader that has read a symbol makes of its arguments what `reread` says, up to the
comma behind the last of them. -/
def ReadsArgs (f : Formula) : Prop :=
  ∀ n, f.head.symbol? = some n → ∀ o fs ls,
    run ⟨.operand, .argument ((Frame.behind o).fill (.name n)) :: fs⟩ (f.argLexemes ++ ls) =
      (f.reread o).bind fun p => run ⟨.operand, .argument p :: fs⟩ ls

variable {f a b l r : Formula} {n : String}

theorem Reads.operand (h : Reads f) (fs : List Frame) (ls : List Lexeme) :
    run ⟨.operand, fs⟩ (f.lexemes ++ ls) =
      (f.reread none).bind fun p => run ⟨.after p, f.opened ++ fs⟩ ls := h none fs ls

theorem Reads.after (h : Reads f) (c : Phrase) (fs : List Frame) (ls : List Lexeme) :
    run ⟨.after c, fs⟩ (f.lexemes ++ ls) =
      (f.reread (some c)).bind fun p => run ⟨.after p, f.opened ++ fs⟩ ls := h (some c) fs ls

theorem reads_app_of_symbol (hn : f.head.symbol? = some n) (hf : ReadsArgs f) (ha : Reads a) :
    Reads (.app f a) := by
  intro o fs ls
  have hlpar : ∀ p, step ⟨.after p, fs⟩ .lpar = some ⟨.operand, .argument p :: fs⟩ := fun _ => rfl
  rw [lexemes_app_of_symbol hn, List.cons_append, List.cons_append,
    run_cons_of_step (step_name o fs n), run_cons_of_step (hlpar _), List.append_assoc, hf n hn,
    List.append_assoc]
  simp only [reread, hn, Option.isSome_some, if_true]
  cases f.reread o with
  | none => rfl
  | some fn =>
    simp only [Option.bind_some, ha.operand]
    cases a.reread none with
    | none => rfl
    | some arg => exact run_cons_of_step (step_rpar _ _ (fun g => isBracket_of_mem_opened) rfl) ls

theorem readsArgs_app (hf : ReadsArgs f) (ha : Reads a) : ReadsArgs (.app f a) := by
  intro n hn o fs ls
  have hn' : f.head.symbol? = some n := hn
  rw [argLexemes, List.append_assoc, hf n hn', List.append_assoc]
  simp only [reread, hn', Option.isSome_some, if_true]
  cases f.reread o with
  | none => rfl
  | some fn =>
    simp only [Option.bind_some, ha.operand]
    cases a.reread none with
    | none => rfl
    | some arg => exact run_cons_of_step (step_comma fun g => isBracket_of_mem_opened) ls

theorem reads_app_of_none (hn : f.head.symbol? = none) (hf : Reads f) (ha : Reads a) :
    Reads (.app f a) := by
  intro o fs ls
  rw [lexemes_app_of_none hn, List.cons_append, run_cons_of_step (step_lpar o fs),
    List.append_assoc, hf.operand, List.append_assoc]
  simp only [reread, hn, Option.isSome_none, Bool.false_eq_true, if_false]
  cases f.reread none with
  | none => rfl
  | some fn =>
    simp only [Option.bind_eq_bind, Option.bind_some, ha.after]
    cases hp : a.reread (some fn) with
    | none => rfl
    | some p =>
      simp only [Option.bind_some, opened_of_reread hp, List.nil_append]
      exact run_cons_of_step
        (step_rpar _ _ (fun g => isBracket_of_mem_opened) (Frame.isBracket_behind o)) ls

theorem reads_not (hb : Reads b) : Reads (.not b) := by
  intro o fs ls
  cases o with
  | some c => rfl
  | none =>
    have hstep : step ⟨.operand, fs⟩ .not = some ⟨.operand, .not :: fs⟩ := rfl
    refine (run_cons_of_step hstep (b.lexemes ++ ls)).trans ?_
    rw [hb.operand]
    simp [reread, opened]

theorem reads_binary (op : Connective) (hl : Reads l) (hr : Reads r) :
    Reads (.binary op l r) := by
  intro o fs ls
  have hside := Frame.isBracket_behind o
  rw [lexemes, List.cons_append, run_cons_of_step (step_lpar o fs), List.append_assoc, hl.operand]
  simp only [reread, List.cons_append, List.append_assoc]
  cases l.reread none with
  | none => split <;> rfl
  | some left =>
    rw [Option.bind_some, run_cons_of_step (step_binary op l left hside), run_right]
    split
    · rfl
    · rw [hr.operand]
      cases r.reread none with
      | none => rfl
      | some right =>
        -- the closing bracket ends the right side, the connective and what was left open before
        have hos : ∀ g ∈ r.opened ++
            .right op (settle (·.endsBefore op) left l.opened).1 ::
              (settle (·.endsBefore op) left l.opened).2, g.isBracket = false := by
          intro g hg
          rw [List.mem_append, List.mem_cons] at hg
          rcases hg with hg | rfl | hg
          · exact isBracket_of_mem_opened hg
          · rfl
          · exact isBracket_of_mem_opened (mem_of_mem_settle hg)
        have hrpar := run_cons_of_step (step_rpar right fs hos hside) ls
        simpa [fillAll_append, fillAll_cons, Frame.fill, opened] using hrpar

theorem reads_quant (q : Quantifier) (x : String) (τ : Ty) (hb : Reads b) :
    Reads (.quant q x τ b) := by
  intro o fs ls
  cases o with
  | some c => rfl
  | none =>
    let g := Frame.body q x (some τ.text)
    have hsteps : run ⟨.operand, fs⟩ ((Formula.quant q x τ b).lexemes ++ ls) =
        run ⟨.operand, .group :: g :: fs⟩ (b.lexemes ++ .rpar :: ls) := by
      rw [lexemes]
      simp only [List.cons_append, List.append_assoc]
      rfl
    refine hsteps.trans ?_
    rw [hb.operand, reread]
    cases b.reread none with
    | none => rfl
    | some body => exact run_cons_of_step (step_rpar _ _ (fun g => isBracket_of_mem_opened) rfl) ls

/-- **The lexemes of a formula lead a reader from the place where they start to what
`reread` says**, inside the frames that are still open. -/
theorem run_lexemes (f : Formula) : Reads f := by
  -- a symbol with fewer arguments is no part of the text, so these are carried along
  suffices key : Reads f ∧ ReadsArgs f from key.1
  induction f with
  | var n τ =>
    refine ⟨fun o fs ls => run_cons_of_step (step_name o fs n) ls, fun m hm o fs ls => ?_⟩
    cases hm; rfl
  | const n τ =>
    refine ⟨fun o fs ls => run_cons_of_step (step_name o fs n) ls, fun m hm o fs ls => ?_⟩
    cases hm; rfl
  | app f a ihf iha =>
    refine ⟨?_, readsArgs_app ihf.2 iha.1⟩
    cases hn : f.head.symbol? with
    | some n => exact reads_app_of_symbol hn ihf.2 iha.1
    | none => exact reads_app_of_none hn ihf.1 iha.1
  | not b ih => exact ⟨reads_not ih.1, fun n hn => by cases hn⟩
  | binary op l r ihl ihr => exact ⟨reads_binary op ihl.1 ihr.1, fun n hn => by cases hn⟩
  | quant q x τ b ih => exact ⟨reads_quant q x τ ih.1, fun n hn => by cases hn⟩

end Reading.Reader

/-- The phrase of the lexemes of a formula: at the end of a text all that is open is
closed. -/
theorem Reading.readPhrase_lexemes_eq_ok_iff {f : Formula} {p : Phrase} :
    readPhrase f.lexemes = .ok p ↔ ∃ c, f.reread none = some c ∧ fillAll c f.opened = p := by
  have hrun : Reader.start.run f.lexemes =
      (f.reread none).map fun c => ⟨.after c, f.opened⟩ := by
    have := (Reader.run_lexemes f).operand [] []
    rw [List.append_nil, List.append_nil] at this
    rw [Reader.start, this]
    cases f.reread none <;> rfl
  cases hc : f.reread none with
  | none =>
    rw [hc] at hrun
    cases hfeed : Reader.start.feed f.lexemes with
    | error n => simp [readPhrase, hfeed]
    | ok r => rw [Reader.feed_eq_ok_iff.1 hfeed] at hrun; cases hrun
  | some c =>
    rw [hc] at hrun
    have hclose : Reader.close c f.opened = (fillAll c f.opened, []) :=
      settle_of_forall (fun g hg => by simp [Formula.isBracket_of_mem_opened hg]) c
    simp [readPhrase, Reader.feed_eq_ok_iff.2 hrun, Reader.finish?, hclose]

end Refutation
