import JsonStream.Decimal.Basic

/-!
# The shortest decimal of a binary64 number

Among the decimals that round to a given number, `Binary64.shortest` finds one with the fewest digits,
and of those the one nearest to the number.

The decimals that round to a rank form a `Cell`: the interval between the two middles to the neighbouring
ranks, with its ends exactly if the rank is even. The search goes through the grids of multiples of
10ⁿ, coarsest first. If a grid has a point in the cell, one of the two points next to the number is in it,
so two tests decide a grid.
-/

namespace JsonStream

/-- Which of two equally near decimals to take: the larger one, or the one whose last digit is even. -/
inductive Tie
  | up
  | even
  deriving DecidableEq, Repr

def Tie.choose : Tie → Nat → Nat
  | .up, below => below + 1
  | .even, below => if below % 2 = 0 then below else below + 1

namespace Binary64

/-- The magnitudes that round to one rank. All are counted in the same unit. -/
structure Cell where
  low : Nat
  value : Nat
  high : Nat
  -- Whether `low` and `high` themselves belong to the cell.
  closed : Bool
  deriving Repr

namespace Cell

def contains (c : Cell) (x : Nat) : Bool :=
  if c.closed then decide (c.low ≤ x ∧ x ≤ c.high) else decide (c.low < x ∧ x < c.high)

/-- The multiple of `step` that stands for the cell, given as the factor: one of the two next to the value
if either is in the cell, the nearer if both are. -/
def point? (c : Cell) (tie : Tie) (step : Nat) : Option Nat :=
  let below := c.value / step
  let lower := below * step
  let upper := lower + step
  match c.contains lower, c.contains upper with
  | false, false => none
  | true, false => some below
  | false, true => some (below + 1)
  | true, true =>
    if c.value - lower < upper - c.value then some below
    else if upper - c.value < c.value - lower then some (below + 1)
    else some (tie.choose below)

/-- The point on the coarsest grid from `n` down that has one, with the grid's exponent. The cell is
counted in halves of the unit of grid 0, which holds the value itself. -/
def search (c : Cell) (tie : Tie) : Nat → Nat × Nat
  | 0 => (c.value / 2, 0)
  | n + 1 =>
    match c.point? tie (2 * Nat.pow 10 (n + 1)) with
    | some k => (k, n + 1)
    | none => c.search tie n

end Cell

/-- The magnitudes that round to a positive rank, in halves of 10⁻¹⁰⁷⁴: a unit is 5¹⁰⁷⁴ times 10⁻¹⁰⁷⁴. -/
def cell (rank : Nat) : Cell :=
  let scale := Nat.pow 5 1074
  { low := (units (rank - 1) + units rank) * scale
    value := 2 * units rank * scale
    high := (units rank + units (rank + 1)) * scale
    closed := rank % 2 == 0 }

/-- A grid that is coarse enough: its step is at least `2 ^ bits` units, for `28 / 93` is a little more and
`3 / 10` a little less than the logarithm of two. -/
def coarseGrid (bits : Nat) : Nat :=
  if 1074 ≤ bits then 1074 + (28 * (bits - 1074) + 92) / 93
  else 1074 - 3 * (1074 - bits) / 10

/-- The shortest decimal that rounds to the number, the nearest of those, with the sign of the number. -/
def shortest (tie : Tie) (x : Binary64) : Decimal :=
  if x.rank = 0 then ⟨x.negative, 0, 0⟩
  else
    let (k, n) := (cell x.rank).search tie (coarseGrid ((units x.rank).log2 + 1))
    ⟨x.negative, k, (n : Int) - 1074⟩

end Binary64

end JsonStream
