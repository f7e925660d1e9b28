import JsonStream.Binary64.Shortest
import JsonStream.Proofs.Binary64.Nearest

/-!
# Shortest decimals round back

Whatever grid the search ends on, the point it gives is in the cell, and what is in the cell of a rank is
nearest to that rank. How coarse the first grid is does not matter for this, and neither does the choice
between two points.

- `Cell.contains_search` — the point found is in the cell
- `nearest_of_cell`, `contains_of_nearest` — points of a cell are what rounds to its rank
- `shortest_roundsTo` — the shortest decimal
-/

namespace JsonStream.Binary64

/-! ## Points of a cell -/

namespace Cell

variable {c : Cell} {tie : Tie} {step n k : Nat}

/-- Whatever the rule for ties, one of the two neighbours is taken. -/
theorem choose_eq (tie : Tie) (below : Nat) : tie.choose below = below ∨ tie.choose below = below + 1 := by
  cases tie with
  | up =>
      exact .inr rfl
  | even =>
      rw [Tie.choose]
      split
      · exact .inl rfl
      · exact .inr rfl

/-- The ends of a cell belong to it exactly if it is closed. -/
theorem contains_iff {low value high rank x : Nat} :
    (Cell.mk low value high (rank % 2 == 0)).contains x = true ↔
      (low ≤ x ∧ (low = x → rank % 2 = 0)) ∧ x ≤ high ∧ (x = high → rank % 2 = 0) := by
  rw [contains]
  by_cases even : rank % 2 = 0
  · simp [even]
  · simp [even]
    omega

/-- A point that stands for a cell is in it. -/
theorem contains_of_point? (found : c.point? tie step = some k) : c.contains (k * step) = true := by
  have next : (c.value / step + 1) * step = c.value / step * step + step := Nat.succ_mul _ _
  unfold point? at found
  simp only at found
  -- One of the two grid points around the value was taken, and only after it was found in the cell.
  split at found
  · cases found
  · rename_i lower upper
    cases found
    exact lower
  · rename_i lower upper
    cases found
    rw [next]
    exact upper
  · rename_i lower upper
    have either : k = c.value / step ∨ k = c.value / step + 1 := by
      split at found
      · exact .inl (Option.some.inj found).symm
      · split at found
        · exact .inr (Option.some.inj found).symm
        · rw [← Option.some.inj found]
          exact choose_eq tie _
    rcases either with rfl | rfl
    · exact lower
    · rw [next]
      exact upper

/-- The point that the search ends with is in the cell. -/
theorem contains_search (tie : Tie) (value_mem : c.contains c.value = true) (even : 2 ∣ c.value) (n : Nat) :
    c.contains ((c.search tie n).1 * (2 * 10 ^ (c.search tie n).2)) = true := by
  -- The search goes to finer grids and ends at the value itself, which is on the finest.
  induction n with
  | zero =>
      have whole : c.value / 2 * (2 * 10 ^ 0) = c.value := by
        rw [Nat.pow_zero, Nat.mul_one, Nat.div_mul_cancel even]
      rw [search, whole]
      exact value_mem
  | succ n ih =>
      rw [search, Nat.pow_eq]
      cases found : c.point? tie (2 * 10 ^ (n + 1)) with
      | some k =>
          exact contains_of_point? found
      | none =>
          exact ih

end Cell

/-! ## The cell of a rank -/

/-- The scale of cells, as a name that no tactic computes. -/
theorem exists_scale : ∃ scale, scale = 5 ^ 1074 ∧ ∀ rank, cell rank =
    ⟨(units (rank - 1) + units rank) * scale, 2 * units rank * scale,
      (units rank + units (rank + 1)) * scale, rank % 2 == 0⟩ := by
  obtain ⟨scale, scale_eq⟩ : ∃ scale, scale = 5 ^ 1074 := ⟨_, rfl⟩
  refine ⟨scale, scale_eq, fun rank => ?_⟩
  simp only [cell, Nat.pow_eq, ← scale_eq]

theorem scale_pos {scale : Nat} (scale_eq : scale = 5 ^ 1074) : 0 < scale := by
  rw [scale_eq]
  positivity

/-- The number itself is in its cell. -/
theorem contains_value {rank : Nat} (pos : 0 < rank) : (cell rank).contains (cell rank).value = true := by
  rcases exists_scale with ⟨scale, scale_eq, cell_eq⟩
  obtain ⟨below, rfl⟩ : ∃ below, rank = below + 1 := ⟨rank - 1, by omega⟩
  -- The ends of the cell are middles, and the value is strictly between them.
  have lower := Nat.mul_lt_mul_of_pos_right (units_lt_succ below) (scale_pos scale_eq)
  have upper := Nat.mul_lt_mul_of_pos_right (units_lt_succ (below + 1)) (scale_pos scale_eq)
  rw [cell_eq, Nat.add_sub_cancel, Nat.add_mul, Nat.add_mul, Nat.mul_assoc, Cell.contains_iff]
  dsimp only
  omega

theorem two_dvd_value (rank : Nat) : 2 ∣ (cell rank).value := by
  rcases exists_scale with ⟨scale, -, cell_eq⟩
  rw [cell_eq]
  exact ⟨units rank * scale, Nat.mul_assoc 2 _ _⟩

/-! ## Rounding back -/

/-- What the grid of a point means for its magnitude, in units. -/
theorem point_eq_fraction {scale : Nat} (scale_eq : scale = 5 ^ 1074) (k n : Nat) :
    (k * 10 ^ ((n : Int) - 1074) : ℚ) = fraction (k * 10 ^ n) scale := by
  have cast_eq : (scale : ℚ) = 5 ^ 1074 := by
    rw [scale_eq]
    exact Nat.cast_pow 5 1074
  unfold fraction
  rw [cast_eq, zpow_sub₀ (by norm_num), zpow_natCast, Nat.cast_mul, Nat.cast_pow, div_div, ← mul_pow,
    ← mul_div_assoc]
  norm_num

/-- A decimal whose magnitude is a point of the cell of a rank has that rank as the nearest. -/
theorem nearest_of_cell {rank k n : Nat} (mem : (cell rank).contains (k * (2 * 10 ^ n)) = true) :
    Nearest (k * 10 ^ ((n : Int) - 1074)) rank := by
  rcases exists_scale with ⟨scale, scale_eq, cell_eq⟩
  rw [cell_eq, Cell.contains_iff, Nat.mul_left_comm] at mem
  rcases mem with ⟨low, high, high_even⟩
  rw [point_eq_fraction scale_eq]
  -- To be in the cell is to be between the middles, in the same units.
  apply nearest_fraction (scale_pos scale_eq)
  · rintro below rfl
    exact low
  · exact high
  · exact high_even

/-- And the other way around. -/
theorem contains_of_nearest {rank k n : Nat} (pos : 0 < rank)
    (nearest : Nearest (k * 10 ^ ((n : Int) - 1074)) rank) :
    (cell rank).contains (k * (2 * 10 ^ n)) = true := by
  rcases exists_scale with ⟨scale, scale_eq, cell_eq⟩
  obtain ⟨below, rfl⟩ : ∃ below, rank = below + 1 := ⟨rank - 1, by omega⟩
  have scalePos := scale_pos scale_eq
  rw [point_eq_fraction scale_eq] at nearest
  rcases nearest.middle_le (Nat.lt_succ_self below) with ⟨low, low_even⟩
  rcases nearest.le_middle (Nat.lt_succ_self (below + 1)) with ⟨high, high_even⟩
  rw [cell_eq, Nat.add_sub_cancel, Cell.contains_iff, Nat.mul_left_comm]
  refine ⟨⟨(middle_le_fraction_iff scalePos).1 low, fun atLow => low_even ?_⟩,
    (fraction_le_middle_iff scalePos).1 high, fun atHigh => high_even ?_⟩
  · exact ((fraction_eq_middle_iff scalePos).2 atLow.symm).symm
  · exact (fraction_eq_middle_iff scalePos).2 atHigh

/-- The shortest decimal is the point that the search ends with. -/
theorem shortest_eq (tie : Tie) {x : Binary64} (nonzero : x.rank ≠ 0) :
    x.shortest tie = ⟨x.negative,
      ((cell x.rank).search tie (coarseGrid ((units x.rank).log2 + 1))).1,
      (((cell x.rank).search tie (coarseGrid ((units x.rank).log2 + 1))).2 : Int) - 1074⟩ := by
  rw [shortest, if_neg nonzero]

/-- The shortest decimal of a number rounds to that number. -/
theorem shortest_roundsTo (tie : Tie) (x : Binary64) : (x.shortest tie).RoundsTo x := by
  by_cases zero : x.rank = 0
  · have same : x.shortest tie = ⟨x.negative, 0, 0⟩ := by
      rw [shortest, if_pos zero]
    rw [same]
    refine ⟨rfl, ?_⟩
    rw [zero, Decimal.magnitude]
    exact Decimal.magnitude_ofNat 0 0 ▸ nearest_zero Nat.one_pos (by norm_num)
  -- Whatever grid the search begins with, the point it finds is in the cell.
  · have found := Cell.contains_search tie (contains_value (Nat.pos_of_ne_zero zero)) (two_dvd_value x.rank)
      (coarseGrid ((units x.rank).log2 + 1))
    rw [shortest_eq tie zero]
    exact ⟨rfl, nearest_of_cell found⟩

end JsonStream.Binary64
