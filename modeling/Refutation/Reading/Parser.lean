import Refutation.Reading.Phrase
import Refutation.Text.Blank

/-!
# Reading formulas

`parse` gives the formula of a text, or the one fault that is reported: the text is
blank; a token cannot stand where it stands, or the text ends too early; no token starts
at a character; an annotation names no type. Faults of writing come before unknown types,
and of two faults of writing the first in the text is reported.
-/

namespace Refutation.Reading

/-- Why a text is no formula. -/
inductive ParseError where
  /-- There is nothing but blanks. -/
  | empty
  /-- A token cannot stand where it stands. -/
  | unexpected (text : String) (token : Token)
  /-- The text ends too early; the place is that of its last token. -/
  | unfinished (text : String) (last : Position)
  /-- No token starts at this character. -/
  | unmatched (text : String) (char : Char) (position : Position)
  /-- An annotation names no type. -/
  | unknownType (e : Signature.UnknownType)
  deriving DecidableEq, Repr

namespace ParseError

/-- A token in a message. -/
def tokenText (terminal spelling : String) : String :=
  "Token('" ++ terminal ++ "', " ++ Text.quoted spelling ++ ")"

/-- The message for a token in a wrong place. -/
def unexpectedText (text terminal spelling : String) (p : Position) : String :=
  "cannot parse " ++ Text.quoted text ++ ": Unexpected token " ++ tokenText terminal spelling ++
    " at line " ++ toString p.line ++ ", column " ++ toString p.column ++ "."

/-- The wording of each fault. -/
def message : ParseError → String
  | .empty => "empty formula"
  | .unexpected text t => unexpectedText text t.lexeme.terminal t.spelling t.position
  | .unfinished text p => unexpectedText text "$END" "" p
  | .unmatched text c p =>
    "cannot parse " ++ Text.quoted text ++ ": No terminal matches '" ++ String.singleton c ++
      "' in the current parser context, at line " ++ toString p.line ++ " col " ++
      toString p.column
  | .unknownType e => e.message

end ParseError

/-- The fault of a text of which `n` tokens could be read. -/
def Scan.fault (s : Scan) (text : String) (n : Nat) : ParseError :=
  match s.tokens[n]?, s.stuck with
  | some t, _ => .unexpected text t
  | none, some (c, p) => .unmatched text c p
  | none, none => .unfinished text ((s.tokens.getLast?.map Token.position).getD .start)

/-- The phrase of a text that was split into tokens. -/
def Scan.phrase (s : Scan) (text : String) : Except ParseError Phrase :=
  match readPhrase (s.tokens.map Token.lexeme) with
  | .error n => .error (s.fault text n)
  | .ok p =>
    match s.stuck with
    | some (c, q) => .error (.unmatched text c q)
    | none => .ok p

/-- The formula of a text. -/
def parse (text : String) : Except ParseError Formula :=
  if Text.blankText text then .error .empty
  else
    match (scan text).phrase text with
    | .error e => .error e
    | .ok p => p.resolve.mapError .unknownType

end Refutation.Reading
