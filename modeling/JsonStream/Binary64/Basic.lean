/-!
# Finite binary64 numbers

A finite binary64 number is a sign and a *rank*: the place of its magnitude in the increasing list of all
finite magnitudes, zero having rank 0. The rank is also the value of the low 63 bits of its interchange
format, so neighbours in rank are neighbours among the numbers.

Magnitudes are integers here, counted in `units` of 2⁻¹⁰⁷⁴, the least positive magnitude. Infinities and
NaNs are not values of this type.
-/

namespace JsonStream

namespace Binary64

abbrev binade : Nat := Nat.pow 2 52

/-- The number of finite magnitudes; the least rank that is too large. -/
abbrev rankLimit : Nat := 2047 * binade

/-- The magnitude of a rank, in multiples of 2⁻¹⁰⁷⁴. The first two binades are evenly spaced from zero
on; each later one is spaced twice as far apart as the one before. -/
def units (rank : Nat) : Nat :=
  if rank < binade then rank
  else (binade + rank % binade) * Nat.pow 2 (rank / binade - 1)

end Binary64

structure Binary64 where
  negative : Bool
  rank : Nat
  rank_lt : rank < Binary64.rankLimit
  deriving DecidableEq, Repr

namespace Binary64

def zero (negative : Bool) : Binary64 :=
  ⟨negative, 0, by decide⟩

/-- The number of a sign and a rank, if the rank is that of a finite magnitude. -/
def ofRank? (negative : Bool) (rank : Nat) : Option Binary64 :=
  if h : rank < rankLimit then some ⟨negative, rank, h⟩ else none

def bits (x : Binary64) : Nat :=
  (if x.negative then Nat.pow 2 63 else 0) + x.rank

/-- Equality of numbers: the two zeros are equal, and otherwise sign and magnitude agree. -/
def same (x y : Binary64) : Bool :=
  x.rank == y.rank && (x.rank == 0 || x.negative == y.negative)

end Binary64

end JsonStream
