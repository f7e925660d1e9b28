import JsonStream.Proofs.Binary64.Shortest

/-!
# Shortest decimals have the fewest digits

The search for the shortest decimal leaves no coarser grid with a point in the cell: those between its first
grid and the one it ends on were tried, and those above the first are coarser than the cell is far from zero.
A decimal with fewer digits would need a coarser grid, or else a power of ten on one is between the two.

- `Cell.not_contains_of_point?`, `Cell.not_contains_of_search` — the grids that were tried
- `not_contains_of_coarse` — the grids above the first
- `significand_shortest_lt` — no decimal that rounds to the number has fewer digits
- `not_dvd_significand_shortest` — no zero at its end
- `magnitude_shortest_lt_iff` — comparison with powers of ten
-/

namespace JsonStream.Binary64

/-! ## Grids that were tried -/

namespace Cell

variable {c : Cell} {tie : Tie} {step n j : Nat}

/-- A cell has no gaps. -/
theorem contains_between {a p b : Nat} (low : c.contains a = true) (high : c.contains b = true) (le : a ≤ p)
    (ge : p ≤ b) : c.contains p = true := by
  unfold contains at low high ⊢
  split
  · rename_i closed
    rw [if_pos closed, decide_eq_true_iff] at low high
    rw [decide_eq_true_iff]
    omega
  · rename_i isOpen
    rw [if_neg isOpen, decide_eq_true_iff] at low high
    rw [decide_eq_true_iff]
    omega

/-- If the cell has no point of a grid, then neither neighbour of the value is in it. -/
theorem eq_false_of_point? (none : c.point? tie step = none) :
    c.contains (c.value / step * step) = false ∧ c.contains ((c.value / step + 1) * step) = false := by
  rw [Nat.succ_mul]
  unfold point? at none
  simp only at none
  split at none
  · rename_i lower upper
    exact ⟨lower, upper⟩
  · cases none
  · cases none
  · split at none
    · cases none
    · split at none
      · cases none
      · cases none

/-- The two points next to the value decide for the whole grid. -/
theorem not_contains_of_point? (value_mem : c.contains c.value = true) (none : c.point? tie step = none)
    (pos : 0 < step) (q : Nat) : c.contains (q * step) = false := by
  rcases eq_false_of_point? none with ⟨lower, upper⟩
  have below : c.value / step * step ≤ c.value := Nat.div_mul_le_self _ _
  have above : c.value ≤ (c.value / step + 1) * step := ((Nat.div_lt_iff_lt_mul pos).1 (Nat.lt_succ_self _)).le
  by_contra mem
  rw [Bool.not_eq_false] at mem
  -- A point of the cell is beyond one of the two, which is then between it and the value.
  rcases Nat.lt_or_ge (c.value / step) q with greater | le
  · have between : (c.value / step + 1) * step ≤ q * step := Nat.mul_le_mul_right step greater
    rw [contains_between value_mem mem above between] at upper
    cases upper
  · have between : q * step ≤ c.value / step * step := Nat.mul_le_mul_right step le
    rw [contains_between mem value_mem between below] at lower
    cases lower

/-- Above the grid that the search ends on it has found nothing. -/
theorem not_contains_of_search (tie : Tie) (value_mem : c.contains c.value = true) (q : Nat)
    (coarser : (c.search tie n).2 < j) (bound : j ≤ n) : c.contains (q * (2 * 10 ^ j)) = false := by
  induction n with
  | zero =>
      omega
  | succ n ih =>
      rw [search, Nat.pow_eq] at coarser
      cases found : c.point? tie (2 * 10 ^ (n + 1)) with
      | some k =>
          rw [found] at coarser
          exact absurd bound (Nat.not_le.2 coarser)
      | none =>
          rw [found] at coarser
          rcases Nat.lt_or_eq_of_le bound with less | rfl
          · exact ih coarser (Nat.le_of_lt_succ less)
          · exact not_contains_of_point? value_mem found (by positivity) q

end Cell

/-! ## Grids above the first -/

/-- A power of two below a power of ten, where the exponents are as 28 to 93. -/
theorem two_pow_le_ten_pow_of_le {a c : Nat} (le : 28 * a ≤ 93 * c) : 2 ^ a ≤ 10 ^ c := by
  have powers : (2 ^ a) ^ 28 ≤ (10 ^ c) ^ 28 := by
    calc
      (2 ^ a) ^ 28 = 2 ^ (28 * a) := by rw [← Nat.pow_mul, Nat.mul_comm]
      _ ≤ 2 ^ (93 * c) := Nat.pow_le_pow_right (by decide) le
      _ = (2 ^ 93) ^ c := Nat.pow_mul 2 93 c
      _ ≤ (10 ^ 28) ^ c := Nat.pow_le_pow_left (by decide) c
      _ = (10 ^ c) ^ 28 := by rw [← Nat.pow_mul, ← Nat.pow_mul, Nat.mul_comm]
  exact (Nat.pow_le_pow_iff_left (by decide)).1 powers

/-- A power of ten below a power of two, where the exponents are as 3 to 10. -/
theorem ten_pow_le_two_pow_of_le {a c : Nat} (le : 10 * c ≤ 3 * a) : 10 ^ c ≤ 2 ^ a := by
  have powers : (10 ^ c) ^ 10 ≤ (2 ^ a) ^ 10 := by
    calc
      (10 ^ c) ^ 10 = 10 ^ (10 * c) := by rw [← Nat.pow_mul, Nat.mul_comm]
      _ ≤ 10 ^ (3 * a) := Nat.pow_le_pow_right (by decide) le
      _ = (10 ^ 3) ^ a := Nat.pow_mul 10 3 a
      _ ≤ (2 ^ 10) ^ a := Nat.pow_le_pow_left (by decide) a
      _ = (2 ^ a) ^ 10 := by rw [← Nat.pow_mul, ← Nat.pow_mul, Nat.mul_comm]
  exact (Nat.pow_le_pow_iff_left (by decide)).1 powers

/-- The step of the first grid is at least so many units. -/
theorem le_coarseGrid {scale : Nat} (scale_eq : scale = 5 ^ 1074) (bits : Nat) :
    2 ^ bits * scale ≤ 10 ^ coarseGrid bits := by
  have ten : 10 ^ 1074 = 2 ^ 1074 * scale := by rw [scale_eq, ← Nat.mul_pow]
  unfold coarseGrid
  split
  · rename_i large
    obtain ⟨a, rfl⟩ := Nat.exists_eq_add_of_le large
    rw [Nat.add_sub_cancel_left, Nat.pow_add, Nat.pow_add, ten, Nat.mul_right_comm]
    exact Nat.mul_le_mul_left _ (two_pow_le_ten_pow_of_le (by omega))
  · rename_i small
    obtain ⟨a, a_eq⟩ := Nat.exists_eq_add_of_le (Nat.le_of_not_le small)
    obtain ⟨c, c_eq⟩ : ∃ c, c = 3 * (1074 - bits) / 10 := ⟨_, rfl⟩
    rw [← c_eq]
    have pos : 0 < 10 ^ c := Nat.pow_pos (by decide)
    have sum : 1074 - c + c = 1074 := by omega
    refine Nat.le_of_mul_le_mul_right ?_ pos
    rw [← Nat.pow_add, sum, ten, a_eq, Nat.pow_add, Nat.mul_right_comm]
    exact Nat.mul_le_mul_right _ (Nat.mul_le_mul_left _ (ten_pow_le_two_pow_of_le (by omega)))

/-- From one rank to the next the magnitude at most doubles. -/
theorem units_succ_le {rank : Nat} (pos : 0 < rank) : units (rank + 1) ≤ 2 * units rank := by
  rcases exists_place rank with ⟨shift, m, rfl, low, high⟩
  have next : shift = 0 ∨ binade ≤ m + 1 := by omega
  have some : 1 ≤ m := by
    rcases low with rfl | large
    · omega
    · exact le_trans (by decide) large
  rw [Nat.add_assoc, units_shifted low (by omega), units_shifted next (by omega), ← Nat.mul_assoc]
  exact Nat.mul_le_mul_right _ (by omega)

theorem units_pos {rank : Nat} (pos : 0 < rank) : 0 < units rank :=
  Nat.zero_lt_of_lt (units_strictMono pos)

/-- No positive number is read as zero, so its shortest decimal is not zero. -/
theorem not_contains_zero {rank : Nat} (pos : 0 < rank) : (cell rank).contains 0 = false := by
  rcases exists_scale with ⟨scale, scale_eq, cell_eq⟩
  have low : 0 < (units (rank - 1) + units rank) * scale :=
    Nat.mul_pos (Nat.add_pos_right _ (units_pos pos)) (scale_pos scale_eq)
  by_contra mem
  rw [Bool.not_eq_false, cell_eq, Cell.contains_iff] at mem
  omega

/-- A grid coarser than the first has no point in the cell but zero, and that is not in it either. -/
theorem not_contains_of_coarse {rank j : Nat} (pos : 0 < rank)
    (coarser : coarseGrid ((units rank).log2 + 1) < j) (q : Nat) :
    (cell rank).contains (q * (2 * 10 ^ j)) = false := by
  rcases Nat.eq_zero_or_pos q with rfl | positive
  · rw [Nat.zero_mul]
    exact not_contains_zero pos
  · rcases exists_scale with ⟨scale, scale_eq, cell_eq⟩
    have grid := le_coarseGrid scale_eq ((units rank).log2 + 1)
    have unit : units rank ≤ 2 ^ ((units rank).log2 + 1) := Nat.lt_log2_self.le
    generalize coarseGrid ((units rank).log2 + 1) = first at coarser grid
    generalize 2 ^ ((units rank).log2 + 1) = power at grid unit
    have step : 10 ^ (first + 1) ≤ 10 ^ j := Nat.pow_le_pow_right (by decide) coarser
    have least : 2 * 10 ^ j ≤ q * (2 * 10 ^ j) := Nat.le_mul_of_pos_left _ positive
    have next := units_succ_le pos
    have high : (units rank + units (rank + 1)) * scale ≤ 3 * power * scale :=
      Nat.mul_le_mul_right scale (by omega)
    have some : 0 < power * scale := Nat.mul_pos ((units_pos pos).trans_le unit) (scale_pos scale_eq)
    by_contra mem
    rw [Bool.not_eq_false, cell_eq, Cell.contains_iff] at mem
    rw [Nat.mul_assoc] at high
    rw [Nat.pow_succ] at step
    omega

/-! ## Decimals -/

variable {x : Binary64}

/-- No decimal on a coarser grid than the shortest rounds to the number. -/
theorem not_nearest_of_coarser (tie : Tie) (nonzero : x.rank ≠ 0) {e : Int}
    (coarser : (x.shortest tie).exponent < e) (q : Nat) : ¬ Nearest (q * 10 ^ e) x.rank := by
  intro nearest
  have pos := Nat.pos_of_ne_zero nonzero
  rw [shortest_eq tie nonzero] at coarser
  simp only at coarser
  obtain ⟨j, rfl⟩ : ∃ j : Nat, e = (j : Int) - 1074 := ⟨(e + 1074).toNat, by omega⟩
  have mem := contains_of_nearest pos nearest
  rcases Nat.lt_or_ge (coarseGrid ((units x.rank).log2 + 1)) j with above | tried
  · rw [not_contains_of_coarse pos above q] at mem
    cases mem
  · rw [Cell.not_contains_of_search tie (contains_value pos) q (by omega) tried] at mem
    cases mem

/-- Ten of its steps are one of the next coarser grid. -/
theorem not_nearest_tenfold (tie : Tie) (nonzero : x.rank ≠ 0) (q : Nat) :
    ¬ Nearest (q * 10 * 10 ^ (x.shortest tie).exponent) x.rank := by
  have coarser := not_nearest_of_coarser tie nonzero (lt_one_add (x.shortest tie).exponent) q
  rwa [zpow_add₀ (by norm_num), zpow_one, ← mul_assoc] at coarser

/-- If the significand of a decimal that rounds to the number has so many digits, that of the shortest has no
more. -/
theorem significand_shortest_lt (tie : Tie) (nonzero : x.rank ≠ 0) {m length : Nat} {e : Int}
    (nearest : Nearest (m * 10 ^ e) x.rank) (short : m < 10 ^ length) :
    (x.shortest tie).significand < 10 ^ length := by
  have own : Nearest (x.shortest tie).magnitude x.rank := (x.shortest_roundsTo tie).nearest
  have finer : e ≤ (x.shortest tie).exponent := by
    by_contra coarser
    exact not_nearest_of_coarser tie nonzero (not_le.1 coarser) m nearest
  by_contra long
  cases length with
  | zero =>
      -- Zero is on every grid.
      obtain rfl : m = 0 := by omega
      apply not_nearest_tenfold tie nonzero 0
      rw [Nat.cast_zero, zero_mul] at nearest
      rwa [Nat.cast_zero, zero_mul, zero_mul]
  | succ length =>
      -- The power of ten between the two decimals is on the next coarser grid.
      apply not_nearest_tenfold tie nonzero (10 ^ length)
      rw [Nat.cast_pow, Nat.cast_ofNat, ← pow_succ]
      refine nearest.between own ?_ ?_
      · have le : (m : ℚ) ≤ 10 ^ (length + 1) := by exact_mod_cast short.le
        exact mul_le_mul le (zpow_le_zpow_right₀ (by norm_num) finer) (zpow_nonneg (by norm_num) _)
          (by positivity)
      · have le : (10 : ℚ) ^ (length + 1) ≤ (x.shortest tie).significand := by
          exact_mod_cast Nat.le_of_not_lt long
        exact mul_le_mul_of_nonneg_right le (zpow_nonneg (by norm_num) _)

/-- The shortest decimal does not end in a zero. -/
theorem not_dvd_significand_shortest (tie : Tie) (nonzero : x.rank ≠ 0) :
    ¬ 10 ∣ (x.shortest tie).significand := by
  rintro ⟨q, whole⟩
  have own : Nearest (x.shortest tie).magnitude x.rank := (x.shortest_roundsTo tie).nearest
  rw [Decimal.magnitude, whole, Nat.mul_comm, Nat.cast_mul, Nat.cast_ofNat] at own
  exact not_nearest_tenfold tie nonzero q own

/-- The shortest decimal has nothing to do with the sign. -/
theorem magnitude_shortest_congr (tie : Tie) {y : Binary64} (same : x.rank = y.rank) :
    (x.shortest tie).magnitude = (y.shortest tie).magnitude := by
  unfold shortest
  rw [same]
  split <;> rfl

/-- A decimal that is the shortest of some number, and not above it, separates the shortest decimals as it
separates the numbers. -/
theorem magnitude_shortest_lt_iff (tie : Tie) {y : Binary64} {q : ℚ} (written : (y.shortest tie).magnitude = q)
    (le : q ≤ magnitude y.rank) : (x.shortest tie).magnitude < q ↔ magnitude x.rank < q := by
  have own : Nearest (x.shortest tie).magnitude x.rank := (x.shortest_roundsTo tie).nearest
  have bound : Nearest q y.rank := written ▸ (y.shortest_roundsTo tie).nearest
  constructor
  · intro less
    have differ : x.rank ≠ y.rank := fun same =>
      less.ne ((magnitude_shortest_congr tie same).trans written)
    have smaller : x.rank < y.rank := Nat.lt_of_le_of_ne (own.mono bound less.le) differ
    have middle := (bound.middle_le smaller).1
    have step : magnitude x.rank < magnitude y.rank := magnitude_strictMono smaller
    linarith
  · intro less
    by_contra notLess
    have smaller : x.rank < y.rank := magnitude_strictMono.lt_iff_lt.1 (less.trans_le le)
    exact absurd (bound.mono own (not_lt.1 notLess)) (Nat.not_le.2 smaller)

end JsonStream.Binary64
