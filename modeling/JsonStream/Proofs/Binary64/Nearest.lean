import JsonStream.Decimal.Nearest
import Mathlib.Algebra.Order.Field.Rat
import Mathlib.Tactic.FieldSimp
import Mathlib.Tactic.Linarith
import Mathlib.Tactic.Positivity
import Mathlib.Tactic.Push
import Mathlib.Tactic.Ring

/-!
# Rounding is correct

`Binary64.nearestRank` finds the nearest rank by a shift and one division. Here it is compared with
`Binary64.Nearest`, which speaks of all ranks at once. The bridge between the two are the middles of
neighbouring magnitudes: a rank is nearest to whatever lies between the middles on its two sides.

- `units_shifted` — the magnitudes of a binade are multiples of its spacing
- `nearest_of_middles`, `Nearest.unique` — the cell of a rank determines the rank
- `Nearest.between`, `Nearest.mono` — cells are intervals, in the order of the ranks
- `nearest_nearestRank` — the division lands in the right cell
- `lt_rankLimit_iff` — which decimals are out of range
- `Decimal.toBinary64?_eq_some_iff` — a decimal is rounded correctly
-/

namespace JsonStream.Binary64

/-! ## Magnitudes -/

/-- The number itself, for linear arithmetic. -/
theorem binade_eq : binade = 4503599627370496 := by
  rfl

theorem binade_eq_pow : binade = 2 ^ 52 := by
  rfl

/-- In the first binade the rank is the magnitude. -/
theorem units_of_lt {rank : Nat} (small : rank < binade) : units rank = rank :=
  if_pos small

/-- Within a binade the magnitudes are the multiples of its spacing, both ends included. -/
theorem units_shifted {shift m : Nat} (low : shift = 0 ∨ binade ≤ m) (high : m ≤ 2 * binade) :
    units (shift * binade + m) = m * 2 ^ shift := by
  by_cases small : m < binade
  · rcases low with rfl | low
    · simpa using units_of_lt small
    · omega
  · have rank_ge : ¬ shift * binade + m < binade := by omega
    rw [units, if_neg rank_ge, Nat.pow_eq]
    -- The end of a binade is the beginning of the next, where the spacing has doubled.
    rcases Nat.lt_or_eq_of_le high with below | rfl
    · have quotient : (shift * binade + m) / binade = shift + 1 := by
        simp only [binade_eq] at *
        omega
      have remainder : (shift * binade + m) % binade = m - binade := by
        simp only [binade_eq] at *
        omega
      have sum : binade + (m - binade) = m := by omega
      rw [quotient, remainder, sum, Nat.add_sub_cancel]
    · have quotient : (shift * binade + 2 * binade) / binade = shift + 2 := by
        simp only [binade_eq] at *
        omega
      have remainder : (shift * binade + 2 * binade) % binade = 0 := by
        simp only [binade_eq] at *
        omega
      have place : shift + 2 - 1 = shift + 1 := by omega
      rw [quotient, remainder, place, Nat.pow_succ]
      ring

/-- Every rank is a place in a binade, with the next rank in the same binade or at its end. -/
theorem exists_place (rank : Nat) :
    ∃ shift m, rank = shift * binade + m ∧ (shift = 0 ∨ binade ≤ m) ∧ m < 2 * binade := by
  simp only [binade_eq]
  -- Below the first binade, and in it, the shift is zero; each further binade shifts by one more.
  by_cases small : rank < 4503599627370496
  · exact ⟨0, rank, by omega, .inl rfl, by omega⟩
  · exact ⟨rank / 4503599627370496 - 1, 4503599627370496 + rank % 4503599627370496, by omega,
      .inr (by omega), by omega⟩

theorem units_lt_succ (rank : Nat) : units rank < units (rank + 1) := by
  rcases exists_place rank with ⟨shift, m, rfl, low, high⟩
  -- Two neighbours are multiples of one spacing, since the upper may be the end of the binade.
  have next : shift = 0 ∨ binade ≤ m + 1 := by omega
  rw [Nat.add_assoc, units_shifted low (by omega), units_shifted next (by omega)]
  exact Nat.mul_lt_mul_of_pos_right (Nat.lt_succ_self m) (Nat.two_pow_pos shift)

/-- Ranks are ordered as the magnitudes that they stand for. -/
theorem units_strictMono : StrictMono units :=
  strictMono_nat_of_lt_succ units_lt_succ

theorem magnitude_eq (rank : Nat) : magnitude rank = units rank / 2 ^ 1074 := by
  have cast : ∀ n, (Nat.pow 2 n : ℚ) = 2 ^ n := fun n => Nat.cast_pow 2 n
  rw [magnitude, cast 1074]

theorem magnitude_strictMono : StrictMono magnitude := by
  intro r s less
  rw [magnitude_eq, magnitude_eq]
  have lt : (units r : ℚ) < units s := by exact_mod_cast units_strictMono less
  gcongr

/-! ## Cells

Distances are compared through the middle of two magnitudes: what is not beyond the middle is at least
as near to the one as to the other. -/

theorem abs_eq (q : ℚ) : q.abs = |q| := by
  rcases le_total 0 q with nonneg | nonpos
  · rw [Rat.abs_of_nonneg nonneg, abs_of_nonneg nonneg]
  · rw [Rat.abs_of_nonpos nonpos, abs_of_nonpos nonpos]

/-- On this side of the middle the near end is no farther than the other. -/
theorem dist_le_of_le_middle {q a b : ℚ} (le : a ≤ b) (before : 2 * q ≤ a + b) :
    |q - a| ≤ |q - b| := by
  have far : b - q ≤ |q - b| := by
    rw [abs_sub_comm]
    exact le_abs_self _
  have near : |q - a| ≤ b - q := abs_le.2 ⟨by linarith, by linarith⟩
  exact near.trans far

theorem dist_le_of_middle_le {q a b : ℚ} (le : b ≤ a) (after : a + b ≤ 2 * q) :
    |q - a| ≤ |q - b| := by
  have far : q - b ≤ |q - b| := le_abs_self _
  have near : |q - a| ≤ q - b := abs_le.2 ⟨by linarith, by linarith⟩
  exact near.trans far

/-- A point as far from one end as from the other is in the middle. -/
theorem middle_of_dist_eq {q a b : ℚ} (ne : a ≠ b) (same : |q - b| = |q - a|) : 2 * q = a + b := by
  rcases abs_eq_abs.1 same with equal | opposite
  · exact absurd (by linarith) ne
  · linarith

/-- A rank is nearest to what lies between the middles on its two sides, the middles themselves included
if it is even. -/
theorem nearest_of_middles {q : ℚ} {rank : Nat}
    (low : ∀ below, below + 1 = rank → magnitude below + magnitude rank ≤ 2 * q ∧
      (magnitude below + magnitude rank = 2 * q → rank % 2 = 0))
    (high : 2 * q ≤ magnitude rank + magnitude (rank + 1))
    (high_even : 2 * q = magnitude rank + magnitude (rank + 1) → rank % 2 = 0) :
    Nearest q rank := by
  -- All other ranks are at or beyond the two neighbours, so the middles with those decide.
  have above : ∀ r, rank < r → magnitude (rank + 1) ≤ magnitude r := fun r less =>
    magnitude_strictMono.monotone less
  have below : ∀ r, r < rank → ∃ p, p + 1 = rank ∧ magnitude r ≤ magnitude p := fun r less =>
    ⟨rank - 1, by omega, magnitude_strictMono.monotone (by omega)⟩
  constructor
  · intro r
    rw [abs_eq, abs_eq]
    rcases Nat.lt_trichotomy rank r with less | rfl | greater
    · have later := above r less
      exact dist_le_of_le_middle (magnitude_strictMono less).le (by linarith)
    · exact le_refl _
    · rcases below r greater with ⟨p, next, earlier⟩
      have middle := (low p next).1
      exact dist_le_of_middle_le (magnitude_strictMono greater).le (by linarith)
  · intro r ne same
    rw [abs_eq, abs_eq] at same
    -- A tie with any rank is a tie with the neighbour on its side, where the rank is even.
    have differ : magnitude rank ≠ magnitude r := fun equal =>
      ne (magnitude_strictMono.injective equal).symm
    have middle := middle_of_dist_eq differ same
    rcases Nat.lt_or_gt_of_ne ne with less | greater
    · rcases below r less with ⟨p, next, earlier⟩
      have bound := low p next
      exact bound.2 (le_antisymm bound.1 (by linarith))
    · have later := above r greater
      exact high_even (le_antisymm high (by linarith))

/-- No two ranks are nearest: equally near ones would be neighbours, and only one of these is even. -/
theorem Nearest.unique {q : ℚ} {r s : Nat} (first : Nearest q r) (second : Nearest q s) : r = s := by
  by_contra ne
  wlog less : r < s generalizing r s with other
  · exact other second first (Ne.symm ne) (by omega)
  -- Each is at least as near as the other, so they tie and both are even.
  have same : |q - magnitude s| = |q - magnitude r| := by
    have le := first.closest s
    have ge := second.closest r
    rw [abs_eq, abs_eq] at le ge
    exact le_antisymm ge le
  have evenFirst : r % 2 = 0 := first.even_of_tie s (Ne.symm ne) (by rw [abs_eq, abs_eq, same])
  have evenSecond : s % 2 = 0 := second.even_of_tie r ne (by rw [abs_eq, abs_eq, same])
  -- Two even ranks have another between them, which is nearer than both.
  have lower : magnitude r < magnitude (r + 1) := magnitude_strictMono (Nat.lt_succ_self r)
  have upper : magnitude (r + 1) < magnitude s := magnitude_strictMono (by omega)
  have middle : 2 * q = magnitude r + magnitude s :=
    middle_of_dist_eq (lower.trans upper).ne same
  have nearest := first.closest (r + 1)
  rw [abs_eq, abs_eq] at nearest
  have reach : |q - magnitude r| = q - magnitude r := abs_of_nonneg (by linarith)
  have closer : |q - magnitude (r + 1)| < q - magnitude r := abs_lt.2 ⟨by linarith, by linarith⟩
  linarith

/-- The nearest rank has the number on its side of the middle to any greater rank, and on the middle itself
only if it is even. -/
theorem Nearest.le_middle {q : ℚ} {rank r : Nat} (nearest : Nearest q rank) (greater : rank < r) :
    2 * q ≤ magnitude rank + magnitude r ∧ (2 * q = magnitude rank + magnitude r → rank % 2 = 0) := by
  have less : magnitude rank < magnitude r := magnitude_strictMono greater
  have closest := nearest.closest r
  rw [abs_eq, abs_eq] at closest
  constructor
  · by_contra beyond
    have reach : q - magnitude rank ≤ |q - magnitude rank| := le_abs_self _
    have nearer : |q - magnitude r| < q - magnitude rank := abs_lt.2 ⟨by linarith, by linarith⟩
    linarith
  · intro middle
    have opposite : q - magnitude r = -(q - magnitude rank) := by linarith
    exact nearest.even_of_tie r greater.ne' (by rw [abs_eq, abs_eq, opposite, abs_neg])

/-- A magnitude is not below the middle of the rank nearest to it and a lower one, and on it only if the rank is
even. -/
theorem Nearest.middle_le {q : ℚ} {rank r : Nat} (nearest : Nearest q rank) (smaller : r < rank) :
    magnitude r + magnitude rank ≤ 2 * q ∧ (magnitude r + magnitude rank = 2 * q → rank % 2 = 0) := by
  have less : magnitude r < magnitude rank := magnitude_strictMono smaller
  have closest := nearest.closest r
  rw [abs_eq, abs_eq] at closest
  constructor
  · by_contra before
    have reach : -(q - magnitude rank) ≤ |q - magnitude rank| := neg_le_abs _
    have nearer : |q - magnitude r| < magnitude rank - q := abs_lt.2 ⟨by linarith, by linarith⟩
    linarith
  · intro middle
    have opposite : q - magnitude r = -(q - magnitude rank) := by linarith
    exact nearest.even_of_tie r smaller.ne (by rw [abs_eq, abs_eq, opposite, abs_neg])

/-- The numbers nearest to one rank are an interval. -/
theorem Nearest.between {a p b : ℚ} {rank : Nat} (low : Nearest a rank) (high : Nearest b rank) (le : a ≤ p)
    (ge : p ≤ b) : Nearest p rank := by
  apply nearest_of_middles
  · rintro below rfl
    have bound := low.middle_le (Nat.lt_succ_self below)
    exact ⟨by linarith, fun middle => bound.2 (le_antisymm bound.1 (by linarith))⟩
  · have bound := high.le_middle (Nat.lt_succ_self rank)
    linarith
  · intro middle
    have bound := high.le_middle (Nat.lt_succ_self rank)
    exact bound.2 (le_antisymm bound.1 (by linarith))

/-- Rounding is monotone. -/
theorem Nearest.mono {a b : ℚ} {r s : Nat} (first : Nearest a r) (second : Nearest b s) (le : a ≤ b) :
    r ≤ s := by
  by_contra less
  have above := (first.middle_le (Nat.lt_of_not_le less)).1
  have below := (second.le_middle (Nat.lt_of_not_le less)).1
  obtain rfl : a = b := by linarith
  exact less (first.unique second).le

/-! ## Fractions of units -/

def fraction (num den : Nat) : ℚ :=
  num / den / 2 ^ 1074

/-- All magnitudes have the denominator `den * 2 ^ 1074`, which cancels. -/
theorem middle_eq_div {den : Nat} (pos : 0 < den) (r s : Nat) :
    magnitude r + magnitude s = ((units r + units s) * den : ℕ) / (den * 2 ^ 1074) := by
  have denPos : (0 : ℚ) < den := by exact_mod_cast pos
  rw [magnitude_eq, magnitude_eq]
  push_cast
  field_simp

theorem two_mul_fraction (num den : Nat) : 2 * fraction num den = (2 * num : ℕ) / (den * 2 ^ 1074) := by
  unfold fraction
  rw [div_div, Nat.cast_mul, Nat.cast_ofNat, mul_div_assoc]

/-- The middles in whole numbers. -/
theorem middle_le_fraction_iff {num den r s : Nat} (pos : 0 < den) :
    magnitude r + magnitude s ≤ 2 * fraction num den ↔ (units r + units s) * den ≤ 2 * num := by
  have bottom : (0 : ℚ) < den * 2 ^ 1074 := by positivity
  rw [middle_eq_div pos, two_mul_fraction, div_le_div_iff_of_pos_right bottom, Nat.cast_le]

/-- The comparison with the middle of two ranks, in integers. -/
theorem fraction_le_middle_iff {num den r s : Nat} (pos : 0 < den) :
    2 * fraction num den ≤ magnitude r + magnitude s ↔ 2 * num ≤ (units r + units s) * den := by
  have bottom : (0 : ℚ) < den * 2 ^ 1074 := by positivity
  rw [middle_eq_div pos, two_mul_fraction, div_le_div_iff_of_pos_right bottom, Nat.cast_le]

theorem fraction_eq_middle_iff {num den r s : Nat} (pos : 0 < den) :
    2 * fraction num den = magnitude r + magnitude s ↔ 2 * num = (units r + units s) * den := by
  have bottom : (0 : ℚ) < den * 2 ^ 1074 := by positivity
  rw [middle_eq_div pos, two_mul_fraction, div_left_inj' bottom.ne', Nat.cast_inj]

/-- A fraction is nearest to the rank that has it between its middles. -/
theorem nearest_fraction {num den rank : Nat} (pos : 0 < den)
    (low : ∀ below, below + 1 = rank → (units below + units rank) * den ≤ 2 * num ∧
      ((units below + units rank) * den = 2 * num → rank % 2 = 0))
    (high : 2 * num ≤ (units rank + units (rank + 1)) * den)
    (high_even : 2 * num = (units rank + units (rank + 1)) * den → rank % 2 = 0) :
    Nearest (fraction num den) rank := by
  apply nearest_of_middles
  · intro below next
    rcases low below next with ⟨le, even⟩
    refine ⟨(middle_le_fraction_iff pos).2 le, fun middle => even ?_⟩
    exact ((fraction_eq_middle_iff pos).1 middle.symm).symm
  · exact (fraction_le_middle_iff pos).2 high
  · exact fun middle => high_even ((fraction_eq_middle_iff pos).1 middle)

/-! ## The division -/

/-- The quotient of the division has 53 bits, or fewer if it is not shifted. -/
theorem quotient_bounds (num den : Nat) :
    ((num / den).log2 - 52 = 0 ∨ binade ≤ num / (den * 2 ^ ((num / den).log2 - 52))) ∧
      num / (den * 2 ^ ((num / den).log2 - 52)) < 2 * binade := by
  rw [← Nat.div_div_eq_div_mul]
  generalize num / den = q
  by_cases zero : q = 0
  · subst zero
    simp
  · have ge : 2 ^ q.log2 ≤ q := Nat.log2_self_le zero
    have lt : q < 2 ^ (q.log2 + 1) := Nat.lt_log2_self
    -- A quotient of at most 53 bits is not shifted; a longer one is shifted to exactly 53.
    rcases Nat.le_total q.log2 52 with short | long
    · have none : q.log2 - 52 = 0 := by omega
      have bound : 2 ^ (q.log2 + 1) ≤ 2 ^ 53 := Nat.pow_le_pow_right (by decide) (by omega)
      refine ⟨.inl none, ?_⟩
      rw [none, Nat.pow_zero, Nat.div_one, binade_eq]
      omega
    · obtain ⟨shift, log⟩ : ∃ shift, q.log2 = 52 + shift := ⟨q.log2 - 52, by omega⟩
      have place : 52 + shift - 52 = shift := by omega
      rw [log] at ge lt ⊢
      rw [place]
      refine ⟨.inr ?_, ?_⟩
      · rw [Nat.le_div_iff_mul_le (Nat.two_pow_pos shift), binade_eq_pow, ← Nat.pow_add]
        exact ge
      · rw [Nat.div_lt_iff_lt_mul (Nat.two_pow_pos shift), binade_eq_pow, ← Nat.pow_succ', ← Nat.pow_add]
        have same : 52 + shift + 1 = 52 + 1 + shift := by omega
        rwa [same] at lt

/-- A fraction between two neighbours goes to the nearer one, and from the middle to the even one. -/
theorem nearest_of_split {num den below product spacing rest : Nat} (pos : 0 < den)
    (split : product + rest = num) (small : rest < spacing)
    (unitsBelow : units below * den = product)
    (unitsAbove : units (below + 1) * den = product + spacing) :
    Nearest (fraction num den)
      (if spacing < 2 * rest ∨ (2 * rest = spacing ∧ below % 2 = 1) then below + 1 else below) := by
  -- The remainder is compared with half of the spacing, which is where the middle is.
  split_ifs with up
  · have grows := Nat.mul_lt_mul_of_pos_right (units_lt_succ (below + 1)) pos
    apply nearest_fraction pos
    · intro before next
      obtain rfl : before = below := by omega
      rw [Nat.add_mul, unitsBelow, unitsAbove]
      omega
    · rw [Nat.add_mul, unitsAbove]
      omega
    · rw [Nat.add_mul, unitsAbove]
      omega
  · apply nearest_fraction pos
    · intro before next
      subst next
      have grows := Nat.mul_lt_mul_of_pos_right (units_lt_succ before) pos
      rw [Nat.add_mul, unitsBelow]
      omega
    · rw [Nat.add_mul, unitsBelow, unitsAbove]
      omega
    · rw [Nat.add_mul, unitsBelow, unitsAbove]
      omega

/-- The division finds the nearest rank. -/
theorem nearest_nearestRank (num : Nat) {den : Nat} (pos : 0 < den) :
    Nearest (fraction num den) (nearestRank num den) := by
  rcases quotient_bounds num den with ⟨low, high⟩
  unfold nearestRank
  simp only [Nat.pow_eq]
  generalize (num / den).log2 - 52 = shift at low high ⊢
  have spacingPos : 0 < den * 2 ^ shift := Nat.mul_pos pos (Nat.two_pow_pos shift)
  have split := Nat.div_add_mod num (den * 2 ^ shift)
  have small := Nat.mod_lt num spacingPos
  generalize num / (den * 2 ^ shift) = m at low high split ⊢
  -- The quotient is the place of the rank below, and the next rank is one spacing on.
  have next : shift = 0 ∨ binade ≤ m + 1 := by omega
  apply nearest_of_split pos split small
  · rw [units_shifted low (by omega)]
    ring
  · rw [Nat.add_assoc, units_shifted next (by omega)]
    ring

/-! ## Decimals out of range -/

/-- From the second binade on a magnitude is a multiple of the spacing of its binade. -/
theorem magnitude_shifted {e m : Nat} (low : binade ≤ m) (high : m ≤ 2 * binade) :
    magnitude ((e + 1074) * binade + m) = m * 2 ^ e := by
  have scale : (2 : ℚ) ^ 1074 ≠ 0 := pow_ne_zero _ two_ne_zero
  rw [magnitude_eq, units_shifted (.inr low) high, Nat.cast_mul, Nat.cast_pow, pow_add, ← mul_assoc]
  exact mul_div_cancel_right₀ _ scale

/-- The least rank that is too large would stand for the next power of two. -/
theorem magnitude_rankLimit : magnitude rankLimit = 2 ^ 1024 := by
  have place : rankLimit = (971 + 1074) * binade + 2 * binade := by decide +kernel
  have bits : ((2 * binade : ℕ) : ℚ) = 2 ^ 53 := by
    rw [binade_eq]
    norm_num only
  rw [place, magnitude_shifted (by omega) le_rfl, bits, ← pow_add]

/-- Between the greatest finite magnitude and the power of two after it is the number from which on nothing
rounds to a finite one. -/
theorem magnitude_add_rankLimit :
    magnitude (rankLimit - 1) + magnitude rankLimit = 2 * (2 ^ 1024 - 2 ^ 970) := by
  have place : rankLimit - 1 = (971 + 1074) * binade + (2 * binade - 1) := by decide +kernel
  have bits : ((2 * binade - 1 : ℕ) : ℚ) = 2 ^ 53 - 1 := by
    rw [binade_eq]
    norm_num only
  have whole : (2 : ℚ) ^ 1024 = 2 ^ 54 * 2 ^ 970 := by rw [← pow_add]
  have spacing : (2 : ℚ) ^ 971 = 2 * 2 ^ 970 := by rw [← pow_succ']
  rw [place, magnitude_shifted (by decide) (Nat.sub_le _ 1), bits, magnitude_rankLimit, whole, spacing]
  generalize (2 : ℚ) ^ 970 = half
  ring

/-- Below that number the greatest finite magnitude is nearer than all that are too large. -/
theorem dist_top_lt {q : ℚ} {rank : Nat} (below : q < 2 ^ 1024 - 2 ^ 970) (large : rankLimit ≤ rank) :
    |q - magnitude (rankLimit - 1)| < |q - magnitude rank| := by
  have middle := magnitude_add_rankLimit
  have step : magnitude (rankLimit - 1) < magnitude rankLimit := magnitude_strictMono (by norm_num)
  have beyond : magnitude rankLimit ≤ magnitude rank := magnitude_strictMono.monotone large
  -- Only the middle of the two magnitudes counts, so it need not be computed.
  generalize (2 : ℚ) ^ 1024 - 2 ^ 970 = bound at middle below
  have reach : |q - magnitude (rankLimit - 1)| < magnitude rankLimit - q :=
    abs_lt.2 ⟨by linarith, by linarith⟩
  have far : magnitude rank - q ≤ |q - magnitude rank| := by
    rw [abs_sub_comm]
    exact le_abs_self _
  linarith

/-- A finite rank is nearest to what is below the middle between the greatest finite magnitude and the power of
two after it. The middle itself goes up, to the even one of the two. -/
theorem lt_rankLimit_iff {q : ℚ} {rank : Nat} (nearest : Nearest q rank) :
    rank < rankLimit ↔ q < 2 ^ 1024 - 2 ^ 970 := by
  constructor
  · intro finite
    have middle := magnitude_add_rankLimit
    have step : magnitude (rankLimit - 1) < magnitude rankLimit := magnitude_strictMono (by norm_num)
    generalize (2 : ℚ) ^ 1024 - 2 ^ 970 = bound at middle ⊢
    by_contra notBelow
    have least : magnitude rank ≤ magnitude (rankLimit - 1) :=
      magnitude_strictMono.monotone (Nat.le_sub_one_of_lt finite)
    have differ : magnitude rank ≠ magnitude rankLimit := (magnitude_strictMono finite).ne
    -- The next power of two is as near as the greatest finite magnitude, and that as near as any finite one.
    have near := nearest.closest rankLimit
    rw [abs_eq, abs_eq] at near
    have nearer : |q - magnitude rankLimit| ≤ |q - magnitude (rankLimit - 1)| :=
      dist_le_of_middle_le step.le (by linarith)
    have far : |q - magnitude (rankLimit - 1)| ≤ |q - magnitude rank| := by
      rw [abs_of_nonneg (by linarith), abs_of_nonneg (by linarith)]
      linarith
    have tie : |q - magnitude rankLimit| = |q - magnitude rank| := le_antisymm (nearer.trans far) near
    have even : rank % 2 = 0 := nearest.even_of_tie rankLimit finite.ne' (by rw [abs_eq, abs_eq, tie])
    have same : magnitude rank = magnitude (rankLimit - 1) :=
      le_antisymm least (by linarith [middle_of_dist_eq differ tie])
    rw [magnitude_strictMono.injective same] at even
    exact absurd even (by decide)
  · intro below
    by_contra notFinite
    have near := nearest.closest (rankLimit - 1)
    rw [abs_eq, abs_eq] at near
    exact absurd near (not_le.2 (dist_top_lt below (Nat.le_of_not_lt notFinite)))

/-- From 10³⁰⁹ on everything is too large, so the power need not be computed. -/
theorem two_pow_le_ten_pow : (2 : ℚ) ^ 1024 ≤ 10 ^ 309 := by
  have le : 2 ^ 1024 ≤ 10 ^ 309 := by decide +kernel
  have cast : ((2 ^ 1024 : ℕ) : ℚ) ≤ ((10 ^ 309 : ℕ) : ℚ) := Nat.cast_le.2 le
  rwa [Nat.cast_pow, Nat.cast_pow] at cast

/-- Anything below half a unit is nearest to zero. -/
theorem nearest_zero {num den : Nat} (pos : 0 < den) (small : 2 * num < den) :
    Nearest (fraction num den) 0 := by
  have zero : units 0 = 0 := units_of_lt (by norm_num)
  have one : units (0 + 1) = 1 := units_of_lt (by norm_num)
  apply nearest_fraction pos
  · intro below next
    omega
  · rw [zero, one]
    omega
  · intro _
    rfl

end JsonStream.Binary64

namespace JsonStream.Decimal

open Binary64

variable {d : Decimal} {x : Binary64}

theorem magnitude_ofNat (s n : Nat) :
    (s * 10 ^ (Int.ofNat n) : ℚ) = fraction (s * 10 ^ n * 2 ^ 1074) 1 := by
  have scale : (2 : ℚ) ^ 1074 ≠ 0 := pow_ne_zero _ two_ne_zero
  unfold fraction
  rw [Int.ofNat_eq_natCast, zpow_natCast, Nat.cast_mul, Nat.cast_mul, Nat.cast_pow, Nat.cast_pow,
    Nat.cast_one, div_one]
  exact (mul_div_cancel_right₀ _ scale).symm

theorem magnitude_negSucc (s n : Nat) :
    (s * 10 ^ (Int.negSucc n) : ℚ) = fraction (s * 2 ^ 1074) (10 ^ (n + 1)) := by
  have scale : (2 : ℚ) ^ 1074 ≠ 0 := pow_ne_zero _ two_ne_zero
  unfold fraction
  rw [zpow_negSucc, Nat.cast_mul, Nat.cast_pow, Nat.cast_pow, div_right_comm]
  exact (congrArg (· / _) (mul_div_cancel_right₀ _ scale)).symm

/-- The second cut-off leaves less than half a unit: a power of ten is at least that power of eight. -/
theorem double_lt_of_log2 {s n : Nat} (small : s.log2 + 1100 < 3 * (n + 1)) :
    2 * (s * 2 ^ 1074) < 10 ^ (n + 1) := by
  have lt : s < 2 ^ (s.log2 + 1) := Nat.lt_log2_self
  calc
    2 * (s * 2 ^ 1074) < 2 * (2 ^ (s.log2 + 1) * 2 ^ 1074) := by gcongr
    _ = 2 ^ (1 + (s.log2 + 1 + 1074)) := by rw [← Nat.pow_add, ← Nat.pow_succ', Nat.add_comm 1]
    _ ≤ 2 ^ (3 * (n + 1)) := Nat.pow_le_pow_right (by decide) (by omega)
    _ = 8 ^ (n + 1) := by rw [Nat.pow_mul]
    _ ≤ 10 ^ (n + 1) := Nat.pow_le_pow_left (by decide) (n + 1)

/-- The rank of a decimal is the nearest, or else both the rank and the decimal are too large. -/
theorem nearestRank_spec (s : Nat) (e : Int) :
    Nearest (s * 10 ^ e) (nearestRank s e) ∨
      rankLimit ≤ nearestRank s e ∧ (2 : ℚ) ^ 1024 ≤ s * 10 ^ e := by
  -- The power of ten is in the numerator or in the denominator.
  cases e with
  | ofNat n =>
      simp only [nearestRank, Nat.pow_eq]
      split_ifs with zero large
      · left
        subst zero
        rw [magnitude_ofNat, Nat.zero_mul, Nat.zero_mul]
        exact nearest_zero Nat.one_pos (by norm_num)
      · right
        refine ⟨le_rfl, ?_⟩
        -- A significand of at least one with 309 zeros is beyond all finite numbers.
        have one : (1 : ℚ) ≤ s := by exact_mod_cast Nat.one_le_iff_ne_zero.2 zero
        calc
          (2 : ℚ) ^ 1024 ≤ 10 ^ 309 := two_pow_le_ten_pow
          _ ≤ 10 ^ n := pow_le_pow_right₀ (by norm_num) (by omega)
          _ ≤ s * 10 ^ n := le_mul_of_one_le_left (by positivity) one
          _ = s * 10 ^ (Int.ofNat n) := by rw [Int.ofNat_eq_natCast, zpow_natCast]
      · left
        rw [magnitude_ofNat]
        exact nearest_nearestRank (s * 10 ^ n * 2 ^ 1074) Nat.one_pos
  | negSucc n =>
      left
      have pos : 0 < 10 ^ (n + 1) := Nat.pow_pos (by decide)
      rw [magnitude_negSucc]
      simp only [nearestRank, Nat.pow_eq]
      split_ifs with small
      · exact nearest_zero pos (double_lt_of_log2 small)
      · exact nearest_nearestRank _ pos

/-- A decimal has the binary64 number that it rounds to, if that is finite. -/
theorem toBinary64?_eq_some_iff : d.toBinary64? = some x ↔ d.RoundsTo x := by
  unfold toBinary64? ofRank?
  constructor
  · intro h
    split at h
    · rename_i finite
      cases h
      refine ⟨rfl, ?_⟩
      rcases nearestRank_spec d.significand d.exponent with nearest | ⟨large, -⟩
      · exact nearest
      · exact absurd finite (Nat.not_lt.2 large)
    · cases h
  · rintro ⟨sign, nearest⟩
    have finite := x.rank_lt
    rcases nearestRank_spec d.significand d.exponent with found | ⟨-, large⟩
    -- The nearest rank is unique, so the one that was computed is that of `x`.
    · have same : nearestRank d.significand d.exponent = x.rank := found.unique nearest
      rw [dif_pos (same ▸ finite)]
      cases x
      simp_all
    · have below : d.magnitude < 2 ^ 1024 - 2 ^ 970 := (lt_rankLimit_iff nearest).1 finite
      have bound : (2 : ℚ) ^ 1024 - 2 ^ 970 ≤ 2 ^ 1024 := sub_le_self _ (by positivity)
      exact absurd (below.trans_le bound) (not_lt.2 large)

end JsonStream.Decimal
