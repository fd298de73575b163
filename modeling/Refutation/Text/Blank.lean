import Refutation.Text.CharRange

/-!
# Blank characters

The white space of Unicode together with the four information separators. A text made
of blanks only holds no formula.
-/

namespace Refutation.Text

/-- The ranges of blank characters. -/
def blankRanges : List CharRange := [
  ⟨0x09, 0x0d, 1⟩, ⟨0x1c, 0x20, 1⟩, ⟨0x85, 0x85, 1⟩, ⟨0xa0, 0xa0, 1⟩, ⟨0x1680, 0x1680, 1⟩,
  ⟨0x2000, 0x200a, 1⟩, ⟨0x2028, 0x2029, 1⟩, ⟨0x202f, 0x202f, 1⟩, ⟨0x205f, 0x205f, 1⟩,
  ⟨0x3000, 0x3000, 1⟩]

/-- White space in the widest sense. -/
def isBlank (c : Char) : Bool :=
  inRanges blankRanges c

/-- A text without any character but blanks, the empty text included. -/
def blankText (s : String) : Bool :=
  s.toList.all isBlank

/-- The text with its outer blanks taken off. -/
def trimWhere (blank : Char → Bool) (cs : List Char) : List Char :=
  ((cs.dropWhile blank).reverse.dropWhile blank).reverse

end Refutation.Text
