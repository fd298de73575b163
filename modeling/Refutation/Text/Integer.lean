import Refutation.Text.Blank

/-!
# Reading integers

An integer is written with the decimal digits of any script (Unicode 14.0), an optional
sign before them, single low lines between them and blanks around the whole. A numeral
of more than 4300 digits is refused.
-/

namespace Refutation.Text

/-- The code points of the digit zero of each script; the digits one to nine follow it. -/
def digitZeros : List Nat := [
  0x30, 0x660, 0x6f0, 0x7c0, 0x966, 0x9e6, 0xa66, 0xae6, 0xb66, 0xbe6, 0xc66, 0xce6, 0xd66, 0xde6,
  0xe50, 0xed0, 0xf20, 0x1040, 0x1090, 0x17e0, 0x1810, 0x1946, 0x19d0, 0x1a80, 0x1a90, 0x1b50,
  0x1bb0, 0x1c40, 0x1c50, 0xa620, 0xa8d0, 0xa900, 0xa9d0, 0xa9f0, 0xaa50, 0xabf0, 0xff10, 0x104a0,
  0x10d30, 0x11066, 0x110f0, 0x11136, 0x111d0, 0x112f0, 0x11450, 0x114d0, 0x11650, 0x116c0,
  0x11730, 0x118e0, 0x11950, 0x11c50, 0x11d50, 0x11da0, 0x16a60, 0x16ac0, 0x16b50, 0x1d7ce,
  0x1d7d8, 0x1d7e2, 0x1d7ec, 0x1d7f6, 0x1e140, 0x1e2f0, 0x1e950, 0x1fbf0]

/-- The value of a decimal digit. -/
def digitValue? (c : Char) : Option Nat :=
  (digitZeros.find? fun z => decide (z ≤ c.toNat) && decide (c.toNat < z + 10)).map (c.toNat - ·)

/-- Blanks allowed around a numeral: all but the four information separators. -/
def isNumeralBlank (c : Char) : Bool :=
  isBlank c && !(decide (0x1c ≤ c.toNat) && decide (c.toNat ≤ 0x1f))

/-- The most digits a numeral may have. -/
def maxDigits : Nat := 4300

/-- Read digits with single low lines between them; `after` tells that a digit stands
directly before. Returns the digits' values. -/
def readDigits (after : Bool) : List Char → Option (List Nat)
  | [] => if after then some [] else none
  | '_' :: cs => if after then readDigits false cs else none
  | c :: cs => do
    let d ← digitValue? c
    let ds ← readDigits true cs
    return d :: ds

/-- The natural number with the given decimal digits, the highest first. -/
def ofDigits (ds : List Nat) : Nat :=
  ds.foldl (fun n d => 10 * n + d) 0

/-- A numeral without a sign. -/
def readNumeral? (cs : List Char) : Option Nat := do
  let ds ← readDigits false cs
  if ds.length ≤ maxDigits then some (ofDigits ds) else none

/-- The integer a text denotes. -/
def readInteger? (s : String) : Option Int :=
  match trimWhere isNumeralBlank s.toList with
  | '-' :: cs => (readNumeral? cs).map fun n => -(n : Int)
  | '+' :: cs => (readNumeral? cs).map fun n => (n : Int)
  | cs => (readNumeral? cs).map fun n => (n : Int)

end Refutation.Text
