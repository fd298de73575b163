import Refutation.Json.Basic

/-!
# Reading JSON

Reading goes in two stages. `Json.tokens?` splits a text into tokens, and a pushdown
reader takes one token at a time: it keeps the arrays and objects that are still open
and what may come next (`Json.Reader`). Numbers with a fraction or an exponent are
refused, since documents hold integers only, and so is an escaped half of a surrogate
pair without the other half, since texts are made of characters.
-/

namespace Refutation.Json

/-- A token of a JSON text. -/
inductive Token where
  | openArr | closeArr | openObj | closeObj | comma | colon
  | value (j : Json)
  deriving Repr

/-- The value of a hexadecimal digit. -/
def hexValue? (c : Char) : Option Nat :=
  if '0' ≤ c ∧ c ≤ '9' then some (c.toNat - 0x30)
  else if 'a' ≤ c ∧ c ≤ 'f' then some (c.toNat - 0x61 + 10)
  else if 'A' ≤ c ∧ c ≤ 'F' then some (c.toNat - 0x41 + 10)
  else none

/-- The code unit written with four hexadecimal digits. -/
def unit? (a b c d : Char) : Option Nat := do
  return ((← hexValue? a) * 16 + (← hexValue? b)) * 256 + ((← hexValue? c) * 16 + (← hexValue? d))

/-- The character an escape of one letter stands for. -/
def escaped? : Char → Option Char
  | 'n' => some '\n'
  | 'r' => some '\r'
  | 't' => some '\t'
  | 'b' => some '\x08'
  | 'f' => some '\x0c'
  | '/' => some '/'
  | '\\' => some '\\'
  | '\x22' => some '\x22'
  | _ => none

/-- Read the rest of a string after its opening quote. `high` is a first half of a
surrogate pair that waits for its second half, `width` counts the characters read.
Returns the characters and the number of characters up to the closing quote. -/
def stringRest? (high : Option Nat) (width : Nat) : List Char → Option (List Char × Nat)
  | '\x22' :: _ => if high.isNone then some ([], width + 1) else none
  | '\\' :: 'u' :: a :: b :: c :: d :: rest =>
    match unit? a b c d, high with
    | none, _ => none
    | some u, some h =>
      if 0xdc00 ≤ u ∧ u < 0xe000 then
        (stringRest? none (width + 6) rest).map fun r =>
          (Char.ofNat (0x10000 + (h - 0xd800) * 0x400 + (u - 0xdc00)) :: r.1, r.2)
      else none
    | some u, none =>
      if 0xd800 ≤ u ∧ u < 0xdc00 then stringRest? (some u) (width + 6) rest
      else if 0xdc00 ≤ u ∧ u < 0xe000 then none
      else (stringRest? none (width + 6) rest).map fun r => (Char.ofNat u :: r.1, r.2)
  | '\\' :: e :: rest =>
    match escaped? e, high with
    | some c, none => (stringRest? none (width + 2) rest).map fun r => (c :: r.1, r.2)
    | _, _ => none
  | c :: rest =>
    if c = '\\' ∨ c.toNat < 0x20 ∨ high.isSome then none
    else (stringRest? none (width + 1) rest).map fun r => (c :: r.1, r.2)
  | [] => none

/-- The natural number written with the given characters. -/
def natOf (cs : List Char) : Nat :=
  cs.foldl (fun n c => 10 * n + (c.toNat - 0x30)) 0

/-- The token at the start of a text and its width. -/
def tokenAt? : List Char → Option (Token × Nat)
  | '[' :: _ => some (.openArr, 1)
  | ']' :: _ => some (.closeArr, 1)
  | '\x7b' :: _ => some (.openObj, 1)
  | '\x7d' :: _ => some (.closeObj, 1)
  | ',' :: _ => some (.comma, 1)
  | ':' :: _ => some (.colon, 1)
  | '\x22' :: rest => (stringRest? none 1 rest).map fun r => (.value (.str (String.ofList r.1)), r.2)
  | 'n' :: 'u' :: 'l' :: 'l' :: _ => some (.value .null, 4)
  | 't' :: 'r' :: 'u' :: 'e' :: _ => some (.value (.bool true), 4)
  | 'f' :: 'a' :: 'l' :: 's' :: 'e' :: _ => some (.value (.bool false), 5)
  | '-' :: rest =>
    let ds := rest.takeWhile Char.isDigit
    if ds.isEmpty then none else some (.value (.int (-(natOf ds : Int))), 1 + ds.length)
  | cs =>
    let ds := cs.takeWhile Char.isDigit
    if ds.isEmpty then none else some (.value (.int (natOf ds)), ds.length)

/-- Space between tokens. -/
def isSpace (c : Char) : Bool :=
  c = ' ' || c = '\t' || c = '\n' || c = '\r'

/-- The tokens of a text of which the first `skip` characters belong to the token before. -/
def tokensFrom? (skip : Nat) : List Char → Option (List Token)
  | [] => if skip = 0 then some [] else none
  | c :: cs =>
    match skip with
    | k + 1 => tokensFrom? k cs
    | 0 =>
      if isSpace c then tokensFrom? 0 cs
      else match tokenAt? (c :: cs) with
        | none => none
        | some (t, width) => (tokensFrom? (width - 1) cs).map (t :: ·)

/-- The tokens of a text. -/
def tokens? (s : String) : Option (List Token) :=
  tokensFrom? 0 s.toList

/-- An array or object whose end has not been read; the items of an array and the
fields of an object are kept last first, and an object waits for the value of a key. -/
inductive Open where
  | arr (items : List Json)
  | obj (fields : List (String × Json)) (key : String)

/-- What may come next. -/
inductive Expect where
  /-- A value. -/
  | value
  /-- A value or the end of the array just opened. -/
  | first
  /-- A key, or, right after the opening, the end of the object. -/
  | key (fields : List (String × Json)) (mayEnd : Bool)
  /-- The colon after a key. -/
  | colon (fields : List (String × Json)) (key : String)
  /-- A comma or an end: a value is complete. -/
  | after (j : Json)

/-- A reader between two tokens. -/
structure Reader where
  expect : Expect
  stack : List Open

/-- Put a complete array or object where its value was expected. -/
def Reader.complete (j : Json) (stack : List Open) : Reader :=
  ⟨.after j, stack⟩

/-- Take one token. -/
def Reader.step (r : Reader) (t : Token) : Option Reader :=
  match r.expect, t, r.stack with
  | .value, .value j, st | .first, .value j, st => some ⟨.after j, st⟩
  | .value, .openArr, st | .first, .openArr, st => some ⟨.first, .arr [] :: st⟩
  | .value, .openObj, st | .first, .openObj, st => some ⟨.key [] true, st⟩
  | .first, .closeArr, .arr items :: st => some (.complete (.arr items.reverse) st)
  | .key fields _, .value (.str k), st => some ⟨.colon fields k, st⟩
  | .key fields true, .closeObj, st => some (.complete (ofFields fields.reverse) st)
  | .colon fields k, .colon, st => some ⟨.value, .obj fields k :: st⟩
  | .after j, .comma, .arr items :: st => some ⟨.value, .arr (j :: items) :: st⟩
  | .after j, .comma, .obj fields k :: st => some ⟨.key ((k, j) :: fields) false, st⟩
  | .after j, .closeArr, .arr items :: st => some (.complete (.arr (j :: items).reverse) st)
  | .after j, .closeObj, .obj fields k :: st =>
    some (.complete (ofFields ((k, j) :: fields).reverse) st)
  | _, _, _ => none

/-- The document of a text, if it holds exactly one. -/
def parse? (s : String) : Option Json := do
  let r ← (← tokens? s).foldlM Reader.step ⟨.value, []⟩
  match r.expect, r.stack with
  | .after j, [] => some j
  | _, _ => none

end Refutation.Json
