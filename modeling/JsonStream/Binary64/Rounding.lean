import JsonStream.Binary64.Basic

/-!
# Rounding to the nearest rank

A nonnegative fraction of units goes to the rank whose magnitude is nearest to it, and from the middle
between two ranks to the even one. The rule goes on past the last finite rank, as if exponents had no
upper end, so a result that is too large shows as a rank that is not below `rankLimit`.
-/

namespace JsonStream.Binary64

/-- The rank nearest to `num / den` units, ties to the even rank.

With `2 ^ shift` units between neighbouring ranks at that magnitude, the quotient by the spacing has at
most 53 bits, and adding it to `shift` binades gives the rank below or at the fraction. -/
def nearestRank (num den : Nat) : Nat :=
  let shift := (num / den).log2 - 52
  let spacing := den * Nat.pow 2 shift
  let below := shift * binade + num / spacing
  let excess := 2 * (num % spacing)
  if spacing < excess ∨ (excess = spacing ∧ below % 2 = 1) then below + 1 else below

end JsonStream.Binary64
