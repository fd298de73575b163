/-!
# Ranges of characters

A Unicode property is kept as a list of ranges of code points. A range may step by
more than one, since in many scripts capital and small letters alternate.
-/

namespace Refutation.Text

/-- The code points `first`, `first + stride`, … up to `last`. -/
structure CharRange where
  first : Nat
  last : Nat
  stride : Nat := 1
  deriving DecidableEq, Repr

/-- Membership of a character in a range. -/
def CharRange.contains (r : CharRange) (c : Char) : Bool :=
  decide (r.first ≤ c.toNat) && decide (c.toNat ≤ r.last) && (c.toNat - r.first) % r.stride == 0

/-- Membership of a character in one of several ranges. -/
def inRanges (rs : List CharRange) (c : Char) : Bool :=
  rs.any (·.contains c)

end Refutation.Text
