import Mathlib.Data.List.Forall2
import Refutation.Proofs.Reading.Reread

/-!
# The grammar of formulas

The grammar of written formulas, apart from any reader. Its nonterminals are the kinds of
`Category`, and `Derives n t` has one constructor for each alternative of each of them. A
derivation keeps the brackets and the two forms of application, but a step that only passes
from one category to a tighter one leaves no node behind; `Derivation.lexemes` is what was
derived.

The grammar is ambiguous in one point: the body of a quantifier may end before a connective
or go on over it. `Derivation.bodies` tells how far each body goes, and in a derivation that
is `Farthest` every body goes as far to the right as it does in any derivation of the same
lexemes.

* `Derivation.formula`: the formula that was written, with known type annotations.
* `Derivation.annotations`: the type annotations, inner before outer, left before right.
* `Derivation.resolve_phrase`: **names are resolved, unless an annotation is unknown; then
  the first of these is reported.**
-/

namespace Refutation.Reading

/-- The nonterminals of the grammar; `arguments` are the second and further arguments of an
application, each with its comma. -/
inductive Category where
  | implication | disjunction | conjunction | unary | quantified | equality | application
  | arguments | atomic
  deriving DecidableEq, Repr

/-- What a text has to be. -/
def Category.start : Category := .implication

/-- How lexemes were derived. -/
inductive Derivation where
  | symbol (s : String)
  | group (inner : Derivation)
  | apply (fn arg : Derivation)
  | applyMany (fn first more : Derivation)
  | argument (arg : Derivation)
  | arguments (arg more : Derivation)
  | not (body : Derivation)
  | binary (op : Connective) (left right : Derivation)
  | quant (q : Quantifier) (x : String) (typeName : Option String) (body : Derivation)
  deriving DecidableEq, Repr

/-- The grammar: `Derives n t` if `t` is a derivation from the nonterminal `n`. -/
inductive Derives : Category → Derivation → Prop
  | implication {t : Derivation} (h : Derives .disjunction t) : Derives .implication t
  | implies {l r : Derivation} (hl : Derives .disjunction l) (hr : Derives .implication r) :
      Derives .implication (.binary .imp l r)
  | disjunction {t : Derivation} (h : Derives .conjunction t) : Derives .disjunction t
  | or {l r : Derivation} (hl : Derives .conjunction l) (hr : Derives .disjunction r) :
      Derives .disjunction (.binary .or l r)
  | conjunction {t : Derivation} (h : Derives .unary t) : Derives .conjunction t
  | and {l r : Derivation} (hl : Derives .unary l) (hr : Derives .conjunction r) :
      Derives .conjunction (.binary .and l r)
  | not {b : Derivation} (hb : Derives .unary b) : Derives .unary (.not b)
  | quantified {t : Derivation} (h : Derives .quantified t) : Derives .unary t
  | unary {t : Derivation} (h : Derives .equality t) : Derives .unary t
  | quant {q : Quantifier} {x : String} {a : Option String} {b : Derivation} (hx : isName x)
      (ha : ∀ s ∈ a, isName s) (hb : Derives .implication b) :
      Derives .quantified (.quant q x a b)
  | equality {t : Derivation} (h : Derives .application t) : Derives .equality t
  | equals {l r : Derivation} (hl : Derives .application l) (hr : Derives .application r) :
      Derives .equality (.binary .eq l r)
  | application {t : Derivation} (h : Derives .atomic t) : Derives .application t
  | apply {f a : Derivation} (hf : Derives .application f) (ha : Derives .atomic a) :
      Derives .application (.apply f a)
  | applyMany {f a m : Derivation} (hf : Derives .application f) (ha : Derives .implication a)
      (hm : Derives .arguments m) : Derives .application (.applyMany f a m)
  | argument {a : Derivation} (ha : Derives .implication a) : Derives .arguments (.argument a)
  | arguments {a m : Derivation} (ha : Derives .implication a) (hm : Derives .arguments m) :
      Derives .arguments (.arguments a m)
  | symbol {s : String} (hs : isName s) : Derives .atomic (.symbol s)
  | group {t : Derivation} (h : Derives .implication t) : Derives .atomic (.group t)

/-- The lexemes of a type annotation. -/
def annotationLexemes : Option String → List Lexeme
  | none => []
  | some a => [.colon, .name a]

namespace Derivation

/-- The lexemes that were derived. -/
def lexemes : Derivation → List Lexeme
  | .symbol s => [.name s]
  | .group t => .lpar :: (t.lexemes ++ [.rpar])
  | .apply f a => f.lexemes ++ a.lexemes
  | .applyMany f a m => f.lexemes ++ .lpar :: (a.lexemes ++ (m.lexemes ++ [.rpar]))
  | .argument a => .comma :: a.lexemes
  | .arguments a m => .comma :: (a.lexemes ++ m.lexemes)
  | .not b => .not :: b.lexemes
  | .binary op l r => l.lexemes ++ .binary op :: r.lexemes
  | .quant q x a b => .quant q :: .name x :: (annotationLexemes a ++ .dot :: b.lexemes)

/-- The type annotations, inner before outer and left before right. -/
def annotations : Derivation → List String
  | .symbol _ => []
  | .group t => t.annotations
  | .apply f a => f.annotations ++ a.annotations
  | .applyMany f a m => f.annotations ++ (a.annotations ++ m.annotations)
  | .argument a => a.annotations
  | .arguments a m => a.annotations ++ m.annotations
  | .not b => b.annotations
  | .binary _ l r => l.annotations ++ r.annotations
  | .quant _ _ a b => b.annotations ++ a.toList

/-- The number of lexemes in the body of each quantifier, from left to right. -/
def bodies : Derivation → List Nat
  | .symbol _ => []
  | .group t => t.bodies
  | .apply f a => f.bodies ++ a.bodies
  | .applyMany f a m => f.bodies ++ (a.bodies ++ m.bodies)
  | .argument a => a.bodies
  | .arguments a m => a.bodies ++ m.bodies
  | .not b => b.bodies
  | .binary _ l r => l.bodies ++ r.bodies
  | .quant _ _ _ b => b.lexemes.length :: b.bodies

mutual

/-- The formula that was written; a variable is an individual unless its annotation says
that it is a truth value. -/
def formula : Derivation → Formula
  | .symbol s => Signature.symbol s
  | .group t => t.formula
  | .apply f a => .app f.formula a.formula
  | .applyMany f a m => f.formula.applyAll (a.formula :: m.formulas)
  | .argument a => a.formula
  | .arguments a _ => a.formula
  | .not b => .not b.formula
  | .binary op l r => .binary op l.formula r.formula
  | .quant q x a b => .quant q x (if a = some "o" then .truth else .individual) b.formula
termination_by structural t => t

/-- The formulas of further arguments. -/
def formulas : Derivation → List Formula
  | .argument a => [a.formula]
  | .arguments a m => a.formula :: m.formulas
  | _ => []
termination_by structural t => t

end

mutual

/-- The phrase that was written. -/
def phrase : Derivation → Phrase
  | .symbol s => .name s
  | .group t => t.phrase
  | .apply f a => .app f.phrase a.phrase
  | .applyMany f a m => (a.phrase :: m.phrases).foldl .app f.phrase
  | .argument a => a.phrase
  | .arguments a _ => a.phrase
  | .not b => .not b.phrase
  | .binary op l r => .binary op l.phrase r.phrase
  | .quant q x a b => .quant q x a b.phrase
termination_by structural t => t

/-- The phrases of further arguments. -/
def phrases : Derivation → List Phrase
  | .argument a => [a.phrase]
  | .arguments a m => a.phrase :: m.phrases
  | _ => []
termination_by structural t => t

end

end Derivation

/-- Lexemes that make up a formula. -/
def Derivable (ls : List Lexeme) : Prop :=
  ∃ t, Derives .start t ∧ t.lexemes = ls

/-- Every body goes as far to the right as it does in any derivation of the same lexemes. -/
def Derivation.Farthest (t : Derivation) : Prop :=
  ∀ t', Derives .start t' → t'.lexemes = t.lexemes → List.Forall₂ (· ≤ ·) t'.bodies t.bodies

/-! ## Levels

All categories but two stand in a row from the loosest to the tightest, and what derives from
one of them derives from all looser ones. -/

/-- The categories from the loosest on. -/
def level : Nat → Category
  | 0 => .implication
  | 1 => .disjunction
  | 2 => .conjunction
  | 3 => .unary
  | 4 => .equality
  | 5 => .application
  | _ => .atomic

/-- The level of what a connective joins; its left side is one level tighter. -/
def grade : Connective → Nat
  | .imp => 0
  | .or => 1
  | .and => 2
  | .eq => 4

/-- The level of the right side of a connective. Only equality does not associate to the
right. -/
def rightGrade : Connective → Nat
  | .eq => 5
  | op => grade op

variable {t : Derivation}

theorem grade_le_rightGrade (op : Connective) : grade op ≤ rightGrade op := by
  cases op <;> decide

theorem Derives.of_succ {k : Nat} (h : Derives (level (k + 1)) t) : Derives (level k) t := by
  match k with
  | 0 => exact .implication h
  | 1 => exact .disjunction h
  | 2 => exact .conjunction h
  | 3 => exact .unary h
  | 4 => exact .equality h
  | 5 => exact .application h
  | _ + 6 => exact h

/-- What derives from a level derives from all looser ones. -/
theorem Derives.loosen {i j : Nat} (hij : i ≤ j) (h : Derives (level j) t) :
    Derives (level i) t := by
  induction hij with
  | refl => exact h
  | step _ ih => exact ih h.of_succ

theorem Derives.binary (op : Connective) {l r : Derivation}
    (hl : Derives (level (grade op + 1)) l) (hr : Derives (level (rightGrade op)) r) :
    Derives (level (grade op)) (.binary op l r) := by
  cases op with
  | imp => exact .implies hl hr
  | or => exact .or hl hr
  | and => exact .and hl hr
  | eq => exact .equals hl hr

/-- What derives from the level of a connective is joined by it or tighter. -/
theorem Derives.grade_cases (op : Connective) (h : Derives (level (grade op)) t) :
    Derives (level (grade op + 1)) t ∨ ∃ l r, t = .binary op l r ∧
      Derives (level (grade op + 1)) l ∧ Derives (level (rightGrade op)) r := by
  cases op with
  | imp => cases h with
    | implication h => exact Or.inl h
    | implies hl hr => exact Or.inr ⟨_, _, rfl, hl, hr⟩
  | or => cases h with
    | disjunction h => exact Or.inl h
    | or hl hr => exact Or.inr ⟨_, _, rfl, hl, hr⟩
  | and => cases h with
    | conjunction h => exact Or.inl h
    | and hl hr => exact Or.inr ⟨_, _, rfl, hl, hr⟩
  | eq => cases h with
    | equality h => exact Or.inl h
    | equals hl hr => exact Or.inr ⟨_, _, rfl, hl, hr⟩

/-! ## What was written -/

/-- Whether an annotation names a type. -/
def isTypeName (a : String) : Bool :=
  a = "i" || a = "o"

/-- The result, unless an annotation is unknown; then the first of these. -/
def outcome {α : Type} (as : List String) (x : α) : Except Signature.UnknownType α :=
  match as.find? (!isTypeName ·) with
  | some a => .error ⟨a⟩
  | none => .ok x

theorem outcome_of_forall {α : Type} {as : List String} (h : ∀ a ∈ as, isTypeName a) (x : α) :
    outcome as x = .ok x := by
  have hnone : as.find? (!isTypeName ·) = none := by
    rw [List.find?_eq_none]
    exact fun a ha => by simp [h a ha]
  rw [outcome, hnone]

theorem outcome_of_find? {α : Type} {as : List String} {a : String}
    (h : as.find? (!isTypeName ·) = some a) (x : α) : outcome as x = .error ⟨a⟩ := by
  rw [outcome, h]

/-- Faults on the left come before faults on the right. -/
theorem outcome_bind {α β γ : Type} (as bs : List String) (x : α) (y : β) (k : α → β → γ) :
    (do let x ← outcome as x; let y ← outcome bs y; return k x y) =
      outcome (as ++ bs) (k x y) := by
  unfold outcome
  rw [List.find?_append]
  cases as.find? (!isTypeName ·) with
  | some a => rfl
  | none => cases bs.find? (!isTypeName ·) <;> rfl

theorem outcome_map {α β : Type} (as : List String) (x : α) (k : α → β) :
    (do let x ← outcome as x; return k x) = outcome as (k x) := by
  unfold outcome
  cases as.find? (!isTypeName ·) <;> rfl

theorem type_eq_outcome (a : Option String) :
    Signature.type a = outcome a.toList (if a = some "o" then .truth else .individual) := by
  cases a with
  | none => rfl
  | some s =>
    by_cases hi : s = "i"
    · rw [hi]; rfl
    by_cases ho : s = "o"
    · rw [ho]; rfl
    have hs : [s].find? (!isTypeName ·) = some s := by simp [isTypeName, hi, ho]
    rw [Option.toList_some, outcome_of_find? hs]
    unfold Signature.type
    split
    · rename_i h; cases h
    · rename_i h; exact absurd (Option.some.inj h) hi
    · rename_i h; exact absurd (Option.some.inj h) ho
    · rename_i h; rw [Option.some.inj h]

namespace Derivation

/-- What resolving the names of a derivation gives. Further arguments are resolved behind the
function they belong to. -/
def Resolves : Category → Derivation → Prop
  | .arguments, t => ∀ (p : Phrase) (as : List String) (f : Formula), p.resolve = outcome as f →
      (t.phrases.foldl .app p).resolve = outcome (as ++ t.annotations) (f.applyAll t.formulas)
  | _, t => t.phrase.resolve = outcome t.annotations t.formula

theorem resolve_app {p q : Phrase} {as bs : List String} {f g : Formula}
    (hp : p.resolve = outcome as f) (hq : q.resolve = outcome bs g) :
    (Phrase.app p q).resolve = outcome (as ++ bs) (.app f g) := by
  rw [Phrase.resolve, hp, hq]
  exact outcome_bind as bs f g Formula.app

theorem resolve_binary (op : Connective) {p q : Phrase} {as bs : List String} {f g : Formula}
    (hp : p.resolve = outcome as f) (hq : q.resolve = outcome bs g) :
    (Phrase.binary op p q).resolve = outcome (as ++ bs) (.binary op f g) := by
  rw [Phrase.resolve, hp, hq]
  exact outcome_bind as bs f g (Formula.binary op)

theorem resolves {n : Category} (h : Derives n t) : Resolves n t := by
  induction h with
  | implication _ ih | disjunction _ ih | conjunction _ ih | quantified _ ih | unary _ ih
  | equality _ ih | application _ ih | group _ ih => exact ih
  | symbol hs => rfl
  | @not b _ ih =>
    have hb : b.phrase.resolve = outcome b.annotations b.formula := ih
    show (Phrase.not b.phrase).resolve = _
    rw [Phrase.resolve, hb]
    exact outcome_map _ _ Formula.not
  | implies _ _ ihl ihr | or _ _ ihl ihr | and _ _ ihl ihr | equals _ _ ihl ihr =>
    exact resolve_binary _ ihl ihr
  | @quant q x a b _ _ _ ih =>
    have hb : b.phrase.resolve = outcome b.annotations b.formula := ih
    show (Phrase.quant q x a b.phrase).resolve = _
    rw [Phrase.resolve, hb, type_eq_outcome]
    exact outcome_bind _ _ b.formula _ fun body τ => Formula.quant q x τ body
  | @apply f a _ _ ihf iha => exact resolve_app ihf iha
  | @applyMany f a m _ _ _ ihf iha ihm =>
    have hfirst := resolve_app (p := f.phrase) (q := a.phrase) ihf iha
    have hall := ihm _ _ _ hfirst
    rw [List.append_assoc] at hall
    exact hall
  | @argument a _ ih =>
    intro p as f hp
    exact resolve_app hp ih
  | @arguments a m _ _ iha ihm =>
    intro p as f hp
    have hall := ihm _ _ _ (resolve_app (q := a.phrase) hp iha)
    rw [List.append_assoc] at hall
    exact hall

/-- **Names are resolved, unless an annotation is unknown; then the first of these is
reported.** -/
theorem resolve_phrase (h : Derives .start t) :
    t.phrase.resolve = outcome t.annotations t.formula := resolves h

end Derivation

end Refutation.Reading
