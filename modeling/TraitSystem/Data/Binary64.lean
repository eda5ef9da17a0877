/-!
# Binary floating point numbers as bit patterns

A `Binary64` is the 64-bit word of a double precision number.  Nothing here computes with the
numbers; they are only compared and shown, and both are read off the word.

A word is a sign bit above 63 bits of magnitude, and among the words that are numbers the magnitude
bits increase with the absolute value.  So `rank`, the magnitude bits with the sign put back, orders
the numbers as their values do, and gives the two zeros the same place.
-/

namespace TraitSystem

/-- A double precision number, given by its word. -/
structure Binary64 where
  /-- The word, with the sign in its highest bit. -/
  bits : UInt64
  deriving DecidableEq, Repr

namespace Binary64

/-- The word without its sign. -/
def magnitude (x : Binary64) : Nat := x.bits.toNat % 0x8000000000000000

/-- Whether the sign bit is set. -/
def isNegative (x : Binary64) : Bool := 0x8000000000000000 ≤ x.bits.toNat

/-- Whether the word stands for no number: its magnitude lies above that of infinity. -/
def isNaN (x : Binary64) : Bool := 0x7FF0000000000000 < x.magnitude

/-- The place of a number in the order of all numbers; both zeros have place `0`. -/
def rank (x : Binary64) : Int := if x.isNegative then -(x.magnitude : Int) else x.magnitude

/-- Compares two numbers by value; a word that is no number compares with nothing, not even with
itself. -/
def partialCompare (x y : Binary64) : Option Ordering :=
  if x.isNaN || y.isNaN then none else some (compare x.rank y.rank)

/-- The word in sixteen hexadecimal digits. -/
def text (x : Binary64) : String :=
  let digits := Nat.toDigits 16 x.bits.toNat
  String.ofList (List.replicate (16 - digits.length) '0' ++ digits)

end Binary64

end TraitSystem
