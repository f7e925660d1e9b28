import JsonStream.Decimal.Basic

/-!
# The nearest binary64 number

What it means for a decimal to be rounded correctly, said of the exact rational values and without an
algorithm. Of all ranks the one whose magnitude is nearest is taken, and from the middle between two ranks
the even one. Ranks from `Binary64.rankLimit` on take part, so a decimal that is nearest to one of them
rounds to no finite number.
-/

namespace JsonStream

namespace Binary64

def magnitude (rank : Nat) : Rat :=
  (units rank : Rat) / (Nat.pow 2 1074 : Nat)

/-- The rank is the nearest to a magnitude, and the even one of two that are equally near. -/
structure Nearest (q : Rat) (rank : Nat) : Prop where
  closest : ∀ r, (q - magnitude rank).abs ≤ (q - magnitude r).abs
  even_of_tie : ∀ r, r ≠ rank → (q - magnitude r).abs = (q - magnitude rank).abs → rank % 2 = 0

end Binary64

namespace Decimal

def magnitude (d : Decimal) : Rat :=
  d.significand * 10 ^ d.exponent

structure RoundsTo (d : Decimal) (x : Binary64) : Prop where
  sign : x.negative = d.negative
  nearest : Binary64.Nearest d.magnitude x.rank

end Decimal

/-! ## Signed values

Said once more of numbers with their signs and without the ranks that belong to no finite number. -/

namespace Binary64

/-- The number as a rational. Both zeros are zero. -/
def toRat (x : Binary64) : Rat :=
  if x.negative then -magnitude x.rank else magnitude x.rank

/-- The number is the nearest to a rational of all finite numbers, and of two that are equally near the one
whose last bit is zero. -/
structure NearestTo (q : Rat) (x : Binary64) : Prop where
  closest : ∀ y : Binary64, (q - x.toRat).abs ≤ (q - y.toRat).abs
  even_of_tie : ∀ y : Binary64, y.toRat ≠ x.toRat → (q - y.toRat).abs = (q - x.toRat).abs → x.bits % 2 = 0

end Binary64

def Decimal.toRat (d : Decimal) : Rat :=
  if d.negative then -d.magnitude else d.magnitude

end JsonStream
