import Refutation.Reading.Signature
import Refutation.Reading.Token

/-!
# Phrases

A phrase is a formula as it is written: names are not resolved and type annotations not
checked. Phrases are read from left to right, one lexeme at a time, by a reader that
keeps what has been opened and not yet completed (`Frame`) and what may come next
(`Cursor`). A lexeme is refused exactly when the reader has no step for it, so the reader
never goes on past a fault.

Binding strength, loosest first: `→`, `∨`, `∧` (all three to the right), `¬` and the
quantifiers, `=` (which does not chain), application. The body of a quantifier reaches as
far to the right as it can.

* `Reader.step`: the effect of one lexeme.
* `readPhrase`: the phrase of a list of lexemes, or the number of lexemes that were read
  before the fault.
* `Phrase.resolve`: the formula of a phrase.
-/

namespace Refutation.Reading

/-- A formula as it is written. -/
inductive Phrase where
  | name (s : String)
  | app (fn arg : Phrase)
  | not (body : Phrase)
  | binary (op : Connective) (left right : Phrase)
  | quant (q : Quantifier) (name : String) (typeName : Option String) (body : Phrase)
  deriving DecidableEq, Repr

/-- A phrase with a hole at its right end, whose content is being read. -/
inductive Frame where
  /-- The body of a negation. -/
  | not
  /-- The right side of a connective. -/
  | right (op : Connective) (left : Phrase)
  /-- The body of a quantifier. -/
  | body (q : Quantifier) (name : String) (typeName : Option String)
  /-- The inside of brackets. -/
  | group
  /-- An argument of `fn` inside brackets. -/
  | argument (fn : Phrase)
  deriving DecidableEq, Repr

namespace Frame

/-- Fill the hole. -/
def fill : Frame → Phrase → Phrase
  | .not, p => .not p
  | .right op l, p => .binary op l p
  | .body q x a, p => .quant q x a p
  | .group, p => p
  | .argument f, p => .app f p

/-- Whether a frame ends only at a closing bracket. -/
def isBracket : Frame → Bool
  | .group => true
  | .argument _ => true
  | _ => false

end Frame

/-- Binding strength of a connective. -/
def strength : Connective → Nat
  | .imp => 0
  | .or => 1
  | .and => 2
  | .eq => 3

/-- Whether a frame is complete when the connective comes next: it binds more tightly. The
body of a quantifier is never complete then. -/
def Frame.endsBefore (op : Connective) : Frame → Bool
  | .not => decide (op ≠ .eq)
  | .right op' _ => decide (strength op < strength op')
  | _ => false

/-- Fill the innermost frames with a phrase as long as they satisfy a condition. -/
def settle (done : Frame → Bool) (p : Phrase) : List Frame → Phrase × List Frame
  | [] => (p, [])
  | f :: fs => if done f then settle done (f.fill p) fs else (p, f :: fs)

/-- What may come next. -/
inductive Cursor where
  /-- The start of a phrase. -/
  | operand
  /-- The start of the right side of an equality, which is an application. -/
  | side
  /-- The variable of a quantifier. -/
  | binder (q : Quantifier)
  /-- A colon, or the dot before the body. -/
  | bound (q : Quantifier) (name : String)
  /-- The name of the type of a bound variable. -/
  | colon (q : Quantifier) (name : String)
  /-- The dot before the body. -/
  | annotated (q : Quantifier) (name typeName : String)
  /-- Anything that can follow an application. -/
  | after (p : Phrase)
  deriving DecidableEq, Repr

/-- A reader between two lexemes; the innermost frame stands first. -/
structure Reader where
  cursor : Cursor
  frames : List Frame
  deriving DecidableEq, Repr

namespace Reader

/-- The reader at the start of a text. -/
def start : Reader := ⟨.operand, []⟩

/-- Whether the right side of an equality is being read. -/
def inEquality : List Frame → Bool
  | .right .eq _ :: _ => true
  | _ => false

/-- A closing bracket or a comma after an application. -/
def close (p : Phrase) (fs : List Frame) : Phrase × List Frame :=
  settle (fun f => !f.isBracket) p fs

/-- The effect of a lexeme; `none` if it cannot stand here. -/
def step (r : Reader) (l : Lexeme) : Option Reader :=
  let fs := r.frames
  match r.cursor, l with
  | .operand, .name s => some ⟨.after (.name s), fs⟩
  | .operand, .lpar => some ⟨.operand, .group :: fs⟩
  | .operand, .not => some ⟨.operand, .not :: fs⟩
  | .operand, .quant q => some ⟨.binder q, fs⟩
  | .side, .name s => some ⟨.after (.name s), fs⟩
  | .side, .lpar => some ⟨.operand, .group :: fs⟩
  | .binder q, .name x => some ⟨.bound q x, fs⟩
  | .bound q x, .colon => some ⟨.colon q x, fs⟩
  | .bound q x, .dot => some ⟨.operand, .body q x none :: fs⟩
  | .colon q x, .name a => some ⟨.annotated q x a, fs⟩
  | .annotated q x a, .dot => some ⟨.operand, .body q x (some a) :: fs⟩
  | .after p, .name s => some ⟨.after (.app p (.name s)), fs⟩
  | .after p, .lpar => some ⟨.operand, .argument p :: fs⟩
  | .after p, .binary .eq => if inEquality fs then none else some ⟨.side, .right .eq p :: fs⟩
  | .after p, .binary op =>
    let (p, fs) := settle (·.endsBefore op) p fs
    some ⟨.operand, .right op p :: fs⟩
  | .after p, .rpar =>
    match close p fs with
    | (p, .group :: fs) => some ⟨.after p, fs⟩
    | (p, .argument f :: fs) => some ⟨.after (.app f p), fs⟩
    | _ => none
  | .after p, .comma =>
    match close p fs with
    | (p, .argument f :: fs) => some ⟨.operand, .argument (.app f p) :: fs⟩
    | _ => none
  | _, _ => none

/-- The phrase read, if the text may end here. -/
def finish? (r : Reader) : Option Phrase :=
  match r.cursor with
  | .after p =>
    match close p r.frames with
    | (p, []) => some p
    | _ => none
  | _ => none

/-- Read lexemes. A fault is told as the number of lexemes read before it. -/
def feed (r : Reader) : List Lexeme → Except Nat Reader
  | [] => .ok r
  | l :: ls =>
    match r.step l with
    | none => .error 0
    | some r' =>
      match feed r' ls with
      | .ok r'' => .ok r''
      | .error n => .error (n + 1)

end Reader

/-- The phrase of a list of lexemes. A fault is told as the number of lexemes read before
it; if that is all of them, the phrase is unfinished. -/
def readPhrase (ls : List Lexeme) : Except Nat Phrase :=
  match Reader.start.feed ls with
  | .error n => .error n
  | .ok r =>
    match r.finish? with
    | some p => .ok p
    | none => .error ls.length

/-- The formula of a phrase. Inner annotations are checked before outer ones, those on the
left before those on the right. -/
def Phrase.resolve : Phrase → Except Signature.UnknownType Formula
  | .name s => .ok (Signature.symbol s)
  | .app f a => do
    let fn ← f.resolve
    let arg ← a.resolve
    return .app fn arg
  | .not b => do
    let body ← b.resolve
    return .not body
  | .binary op l r => do
    let left ← l.resolve
    let right ← r.resolve
    return .binary op left right
  | .quant q x a b => do
    let body ← b.resolve
    let τ ← Signature.type a
    return .quant q x τ body

end Refutation.Reading
