import Refutation.Text.Printable

/-!
# Quoted text

How a text is shown inside a message: between quotes, with escapes. Single quotes are
used unless the text holds a single quote and no double quote. The backslash, the quote
in use, the line feed, the carriage return and the tab have escapes of their own; any
other character that is not printable is shown by its number in hexadecimal.
-/

namespace Refutation.Text

/-- The number in base sixteen, filled up with zeros to the given width. -/
def hex (width n : Nat) : List Char :=
  let ds := Nat.toDigits 16 n
  List.replicate (width - ds.length) '0' ++ ds

/-- A character by its number: two, four or eight digits, the fewest that suffice. -/
def numberEscape (c : Char) : List Char :=
  if c.toNat < 0x100 then '\\' :: 'x' :: hex 2 c.toNat
  else if c.toNat < 0x10000 then '\\' :: 'u' :: hex 4 c.toNat
  else '\\' :: 'U' :: hex 8 c.toNat

/-- A character of a text quoted by `quote`. -/
def quotedChar (quote c : Char) : List Char :=
  if c = quote then ['\\', c]
  else if c = '\\' then ['\\', '\\']
  else if c = '\n' then ['\\', 'n']
  else if c = '\r' then ['\\', 'r']
  else if c = '\t' then ['\\', 't']
  else if isPrintable c then [c]
  else numberEscape c

/-- The single quote. -/
def singleQuote : Char := '\x27'

/-- The double quote. -/
def doubleQuote : Char := '\x22'

/-- The quote used for a text. -/
def quoteFor (cs : List Char) : Char :=
  if cs.contains singleQuote && !cs.contains doubleQuote then doubleQuote else singleQuote

/-- The text in quotes. -/
def quoted (s : String) : String :=
  let q := quoteFor s.toList
  String.ofList (q :: s.toList.flatMap (quotedChar q) ++ [q])

end Refutation.Text
