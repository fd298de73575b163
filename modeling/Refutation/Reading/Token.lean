import Refutation.Formula.Basic

/-!
# Tokens

A formula text is split into tokens. Every operator has two spellings, and blanks
between tokens carry no meaning, so the meaning of a token is its `Lexeme`; the spelling
and the place are kept beside it for messages. Splitting stops at a character at which
no token starts.

* `lexemeAt?`: the lexeme at the start of a text and its width.
* `scan`: the tokens of a text, and the character at which it got stuck.
-/

namespace Refutation.Reading

/-- The meaning of a token. -/
inductive Lexeme where
  | not
  | binary (op : Connective)
  | quant (q : Quantifier)
  | name (s : String)
  | lpar | rpar | comma | colon | dot
  deriving DecidableEq, Repr

/-- The name of a kind of token in messages. -/
def Lexeme.terminal : Lexeme → String
  | .not => "_NOT"
  | .binary .and => "_AND"
  | .binary .or => "_OR"
  | .binary .imp => "_IMP"
  | .binary .eq => "EQUAL"
  | .quant .all => "_FORALL"
  | .quant .ex => "_EXISTS"
  | .name _ => "NAME"
  | .lpar => "LPAR"
  | .rpar => "RPAR"
  | .comma => "COMMA"
  | .colon => "COLON"
  | .dot => "DOT"

/-- A place in a text; lines and columns count from one. -/
structure Position where
  line : Nat
  column : Nat
  deriving DecidableEq, Repr

/-- The start of a text. -/
def Position.start : Position := ⟨1, 1⟩

/-- The place after a character; only a line feed starts a line. -/
def Position.after (p : Position) (c : Char) : Position :=
  if c = '\n' then ⟨p.line + 1, 1⟩ else ⟨p.line, p.column + 1⟩

/-- A token: its meaning, its spelling and its place. -/
structure Token where
  lexeme : Lexeme
  spelling : String
  position : Position
  deriving DecidableEq, Repr

/-- Characters allowed between tokens. -/
def isSpace (c : Char) : Bool :=
  c = ' ' || c = '\t' || c = '\n' || c = '\r' || c = '\x0c'

/-- Characters a name may start with. -/
def isNameStart (c : Char) : Bool :=
  c.isAlpha || c = '_'

/-- Characters a name may go on with. -/
def isNameChar (c : Char) : Bool :=
  c.isAlphanum || c = '_'

/-- The lexeme written by one character. -/
def signOf? : Char → Option Lexeme
  | '¬' => some .not
  | '~' => some .not
  | '∧' => some (.binary .and)
  | '&' => some (.binary .and)
  | '∨' => some (.binary .or)
  | '|' => some (.binary .or)
  | '→' => some (.binary .imp)
  | '=' => some (.binary .eq)
  | '∀' => some (.quant .all)
  | '!' => some (.quant .all)
  | '∃' => some (.quant .ex)
  | '?' => some (.quant .ex)
  | '(' => some .lpar
  | ')' => some .rpar
  | ',' => some .comma
  | ':' => some .colon
  | '.' => some .dot
  | _ => none

/-- The lexeme at the start of a text, and how many characters it takes. A name takes as
many as it can. -/
def lexemeAt? : List Char → Option (Lexeme × Nat)
  | [] => none
  | '-' :: '>' :: _ => some (.binary .imp, 2)
  | c :: cs =>
    if isNameStart c then
      let word := c :: cs.takeWhile isNameChar
      some (.name (String.ofList word), word.length)
    else (signOf? c).map (·, 1)

/-- What splitting a text gives: the tokens, and the character at which no token starts. -/
structure Scan where
  tokens : List Token
  stuck : Option (Char × Position)
  deriving DecidableEq, Repr

/-- Put a token in front. -/
def Scan.cons (t : Token) (s : Scan) : Scan :=
  { s with tokens := t :: s.tokens }

/-- Split a text at a place; its first `skip` characters belong to the token before. -/
def scanFrom (skip : Nat) (p : Position) : List Char → Scan
  | [] => ⟨[], none⟩
  | c :: cs =>
    match skip with
    | k + 1 => scanFrom k (p.after c) cs
    | 0 =>
      if isSpace c then scanFrom 0 (p.after c) cs
      else match lexemeAt? (c :: cs) with
        | none => ⟨[], some (c, p)⟩
        | some (l, width) =>
          (scanFrom (width - 1) (p.after c) cs).cons ⟨l, String.ofList ((c :: cs).take width), p⟩

/-- Split a text into tokens. -/
def scan (s : String) : Scan :=
  scanFrom 0 .start s.toList

end Refutation.Reading
