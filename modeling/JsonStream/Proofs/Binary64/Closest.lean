import JsonStream.Proofs.Binary64.Fewest

/-!
# Shortest decimals are the nearest

Of the decimals that round to a number and have as few digits as any, none is nearer than the shortest. On its own
grid that is how the search chooses; a decimal on a finer grid with as few digits is further away, because a power
of ten is between the two, and such a power belongs to the cell of the second rank only. Where another decimal is
as near, the rule for ties has decided between them.

- `Cell.outranks_of_search` — points on the grid of the search
- `middle_lt_of_nearest` — powers of ten
- `dist_shortest_lt_of_finer` — points on finer grids
- `shortest_preferred` — all decimals with as few digits
-/

namespace JsonStream

/-- What a rule for ties says for the significand `k` of the decimal that is taken, beside that of another decimal
on the same grid. -/
def Tie.Prefers : Tie → Nat → Nat → Prop
  | .up, k, other => other < k
  | .even, k, other => k % 2 = 0 ∧ other % 2 = 1

/-- Of two neighbours a rule takes the one that it prefers. -/
theorem Tie.prefers_choose (tie : Tie) {p q : Nat} (neighbour : q = p ∨ q = p + 1) (ne : q ≠ tie.choose p) :
    tie.Prefers (tie.choose p) q := by
  cases tie with
  | up =>
      obtain rfl : q = p := neighbour.resolve_right ne
      exact Nat.lt_succ_self q
  | even =>
      rw [choose] at ne ⊢
      by_cases even : p % 2 = 0
      · rw [if_pos even] at ne ⊢
        obtain rfl : q = p + 1 := neighbour.resolve_left ne
        exact ⟨even, by omega⟩
      · rw [if_neg even] at ne ⊢
        obtain rfl : q = p := neighbour.resolve_right ne
        exact ⟨by omega, by omega⟩

namespace Binary64

variable {x : Binary64} {tie : Tie}

namespace Cell

variable {c : Cell} {step n k p q : Nat}

def distance (c : Cell) (point : Nat) : Nat :=
  ((c.value : Int) - point).natAbs

/-- One point of a grid is nearer to the value than another, or as near and preferred. -/
def Outranks (c : Cell) (tie : Tie) (step k q : Nat) : Prop :=
  c.distance (k * step) < c.distance (q * step) ∨
    (c.distance (k * step) = c.distance (q * step) ∧ tie.Prefers k q)

/-- Going down from the value the distance grows. -/
theorem distance_lt_of_lt (pos : 0 < step) (less : q < p) (le : p * step ≤ c.value) :
    c.distance (p * step) < c.distance (q * step) := by
  have further : (q + 1) * step ≤ p * step := Nat.mul_le_mul_right step less
  rw [Nat.succ_mul] at further
  unfold distance
  omega

/-- And going up. -/
theorem distance_lt_of_gt (pos : 0 < step) (greater : p < q) (ge : c.value ≤ p * step) :
    c.distance (p * step) < c.distance (q * step) := by
  have further : (p + 1) * step ≤ q * step := Nat.mul_le_mul_right step greater
  rw [Nat.succ_mul] at further
  unfold distance
  omega

/-- Of the two neighbours of the value the nearer, or of equally near ones the one that the rule takes, is
preferred to all other points of the grid. -/
theorem outranks_of_neighbours (pos : 0 < step) (le : p * step ≤ c.value) (ge : c.value ≤ (p + 1) * step) (ne : q ≠ k)
    (taken : (if c.distance (p * step) < c.distance ((p + 1) * step) then some p
      else if c.distance ((p + 1) * step) < c.distance (p * step) then some (p + 1)
      else some (tie.choose p)) = some k) :
    c.Outranks tie step k q := by
  by_cases neighbour : q = p ∨ q = p + 1
  · split_ifs at taken with lowerNearer upperNearer
    · cases taken
      rw [neighbour.resolve_left ne]
      exact .inl lowerNearer
    · cases taken
      rw [neighbour.resolve_right ne]
      exact .inl upperNearer
    · cases taken
      have same : c.distance (p * step) = c.distance ((p + 1) * step) := by omega
      refine .inr ⟨?_, tie.prefers_choose neighbour ne⟩
      rcases choose_eq tie p with chosen | chosen <;> rcases neighbour with rfl | rfl <;> simp only [chosen, same]
  · -- Beyond the neighbours every point is further away than one of them.
    have least : c.distance (k * step) ≤ c.distance (p * step) ∧
        c.distance (k * step) ≤ c.distance ((p + 1) * step) := by
      split_ifs at taken with lowerNearer upperNearer
      · cases taken
        exact ⟨le_rfl, lowerNearer.le⟩
      · cases taken
        exact ⟨upperNearer.le, le_rfl⟩
      · cases taken
        rcases choose_eq tie p with chosen | chosen <;> rw [chosen] <;> omega
    rcases Nat.lt_or_ge q p with less | above
    · exact .inl (least.1.trans_lt (distance_lt_of_lt pos less le))
    · exact .inl (least.2.trans_lt (distance_lt_of_gt pos (by omega) ge))

/-- The point that stands for a cell is preferred to all others of its grid that are in the cell. -/
theorem outranks_of_point? (found : c.point? tie step = some k) (value_mem : c.contains c.value = true)
    (pos : 0 < step) (mem : c.contains (q * step) = true) (ne : q ≠ k) : c.Outranks tie step k q := by
  have le : c.value / step * step ≤ c.value := Nat.div_mul_le_self _ _
  have ge : c.value ≤ (c.value / step + 1) * step := ((Nat.div_lt_iff_lt_mul pos).1 (Nat.lt_succ_self _)).le
  have next : (c.value / step + 1) * step = c.value / step * step + step := Nat.succ_mul _ _
  unfold point? at found
  simp only [← next] at found
  generalize c.value / step = p at *
  have lowerDistance : c.distance (p * step) = c.value - p * step := by
    unfold distance
    omega
  have upperDistance : c.distance ((p + 1) * step) = (p + 1) * step - c.value := by
    unfold distance
    omega
  rw [← lowerDistance, ← upperDistance] at found
  split at found
  · cases found
  · rename_i lower upper
    cases found
    rcases Nat.lt_or_gt_of_ne ne with less | greater
    · exact .inl (distance_lt_of_lt pos less le)
    · rw [contains_between value_mem mem ge (Nat.mul_le_mul_right step greater)] at upper
      cases upper
  · rename_i lower upper
    cases found
    rcases Nat.lt_or_gt_of_ne ne with less | greater
    · rw [contains_between mem value_mem (Nat.mul_le_mul_right step (Nat.le_of_lt_succ less)) le] at lower
      cases lower
    · exact .inl (distance_lt_of_gt pos greater ge)
  · exact outranks_of_neighbours pos le ge ne found

/-- The same of the point that the search ends with. -/
theorem outranks_of_search (tie : Tie) (value_mem : c.contains c.value = true) (even : 2 ∣ c.value) (n : Nat)
    (mem : c.contains (q * (2 * 10 ^ (c.search tie n).2)) = true) (ne : q ≠ (c.search tie n).1) :
    c.Outranks tie (2 * 10 ^ (c.search tie n).2) (c.search tie n).1 q := by
  induction n with
  | zero =>
      -- The search ends at the value itself.
      have whole : c.value / 2 * (2 * 10 ^ 0) = c.value := by omega
      have other : q * (2 * 10 ^ 0) ≠ c.value := by
        intro same
        have factor : q = c.value / 2 := by omega
        exact ne factor
      left
      change c.distance (c.value / 2 * (2 * 10 ^ 0)) < c.distance (q * (2 * 10 ^ 0))
      rw [whole]
      unfold distance
      omega
  | succ n ih =>
      rw [search, Nat.pow_eq] at ne mem ⊢
      cases found : c.point? tie (2 * 10 ^ (n + 1)) with
      | some k =>
          rw [found] at ne mem
          exact outranks_of_point? found value_mem (by positivity) mem ne
      | none =>
          rw [found] at ne mem
          exact ih mem ne

end Cell

/-! ## Points on one grid -/

/-- The distance of a decimal from a number, in the units of its cell. -/
theorem exists_unit : ∃ unit : ℚ, 0 < unit ∧ ∀ rank q n : Nat,
    |magnitude rank - q * 10 ^ ((n : Int) - 1074)| = (cell rank).distance (q * (2 * 10 ^ n)) / unit := by
  rcases exists_scale with ⟨scale, scale_eq, cell_eq⟩
  have scalePos : (0 : ℚ) < scale := by exact_mod_cast scale_pos scale_eq
  have powerPos : (0 : ℚ) < 2 ^ 1074 := pow_pos (by norm_num) _
  refine ⟨2 * (scale * 2 ^ 1074), mul_pos (by norm_num) (mul_pos scalePos powerPos), fun rank q n => ?_⟩
  rw [point_eq_fraction scale_eq, fraction, magnitude_eq, Cell.distance, Nat.cast_natAbs, Int.cast_abs, cell_eq]
  -- The power is too large to be computed.
  generalize (2 : ℚ) ^ 1074 = power at *
  have bottom : 0 < 2 * (scale * power) := mul_pos (by norm_num) (mul_pos scalePos powerPos)
  rw [← abs_of_pos bottom, ← abs_div]
  congr 1
  push_cast
  field_simp

/-- Of the decimals on its grid that round to the number none is nearer than the shortest, and of one that is as
near the rule for ties decides. -/
theorem outranks_shortest (tie : Tie) (nonzero : x.rank ≠ 0) {q : Nat}
    (nearest : Nearest (q * 10 ^ (x.shortest tie).exponent) x.rank) (ne : q ≠ (x.shortest tie).significand) :
    |magnitude x.rank - (x.shortest tie).magnitude| < |magnitude x.rank - q * 10 ^ (x.shortest tie).exponent| ∨
      (|magnitude x.rank - (x.shortest tie).magnitude| = |magnitude x.rank - q * 10 ^ (x.shortest tie).exponent| ∧
        tie.Prefers (x.shortest tie).significand q) := by
  have pos := Nat.pos_of_ne_zero nonzero
  rcases exists_unit with ⟨unit, unitPos, dist_eq⟩
  rw [Decimal.magnitude]
  rw [shortest_eq tie nonzero] at nearest ne ⊢
  simp only at nearest ne ⊢
  rw [dist_eq, dist_eq, div_lt_div_iff_of_pos_right unitPos, div_left_inj' unitPos.ne', Nat.cast_lt, Nat.cast_inj]
  exact Cell.outranks_of_search tie (contains_value pos) (two_dvd_value x.rank) _ (contains_of_nearest pos nearest) ne

/-- Of the decimals on its grid that are read as the number, the shortest one is the nearest. -/
theorem dist_shortest_le (tie : Tie) (nonzero : x.rank ≠ 0) {q : Nat}
    (nearest : Nearest (q * 10 ^ (x.shortest tie).exponent) x.rank) :
    |magnitude x.rank - (x.shortest tie).magnitude| ≤
      |magnitude x.rank - q * 10 ^ (x.shortest tie).exponent| := by
  by_cases same : q = (x.shortest tie).significand
  · rw [same]
    exact le_rfl
  · rcases outranks_shortest tie nonzero nearest same with nearer | ⟨equal, -⟩
    · exact nearer.le
    · exact equal.le

/-! ## Points on finer grids -/

/-- The spacing of the least magnitudes is about 4.94 times 10⁻³²⁴. -/
theorem exists_spacing : ∃ spacing : ℚ, 49 * 10 ^ (-325 : Int) < spacing ∧ spacing < 50 * 10 ^ (-325 : Int) ∧
    ∀ rank, magnitude rank = units rank * spacing := by
  obtain ⟨power, power_eq⟩ : ∃ power : Nat, power = 2 ^ 1074 := ⟨_, rfl⟩
  obtain ⟨ten, ten_eq⟩ : ∃ ten : Nat, ten = 10 ^ 325 := ⟨_, rfl⟩
  have bounds : 49 * power < ten ∧ ten < 50 * power := by
    rw [power_eq, ten_eq]
    decide +kernel
  have scale : (10 : ℚ) ^ (-325 : Int) = 1 / ten := by
    rw [ten_eq, zpow_neg, one_div, Nat.cast_pow]
    rfl
  have powerPos : (0 : ℚ) < power := by exact_mod_cast (show 0 < power by omega)
  have tenPos : (0 : ℚ) < ten := by exact_mod_cast (show 0 < ten by omega)
  refine ⟨1 / power, ?_, ?_, fun rank => ?_⟩
  · rw [scale, mul_one_div, div_lt_div_iff₀ tenPos powerPos, one_mul]
    exact_mod_cast bounds.1
  · rw [scale, mul_one_div, div_lt_div_iff₀ powerPos tenPos, one_mul]
    exact_mod_cast bounds.2
  · rw [magnitude_eq, div_eq_mul_one_div, power_eq, Nat.cast_pow]
    rfl

/-- The numbers near which the spacing is a twentieth or more are few. -/
theorem lt_ten_of_near {rank : Nat} {q : ℚ} (below : 2 * magnitude rank ≤ 19 * q)
    (above : 20 * q ≤ magnitude rank + magnitude (rank + 1)) : rank < 10 := by
  rcases exists_spacing with ⟨spacing, positive, -, magnitude_eq⟩
  rcases exists_place rank with ⟨shift, m, rfl, low, high⟩
  have next : shift = 0 ∨ binade ≤ m + 1 := by omega
  rw [magnitude_eq, units_shifted low (by omega)] at below above
  rw [magnitude_eq, Nat.add_assoc, units_shifted next (by omega)] at above
  push_cast at below above
  have step : (0 : ℚ) < 2 ^ shift * spacing :=
    mul_pos (by positivity) (lt_trans (mul_pos (by norm_num) (zpow_pos (by norm_num) _)) positive)
  have bound : (m : ℚ) < 10 := by
    by_contra large
    have many : 10 * (2 ^ shift * spacing) ≤ m * (2 ^ shift * spacing) :=
      mul_le_mul_of_nonneg_right (not_lt.1 large) step.le
    linarith
  have few : m < 10 := by exact_mod_cast bound
  rcases low with rfl | large
  · omega
  · rw [binade_eq] at large
    omega

/-- A power of ten that is a spacing of the least magnitudes or somewhat less is 10⁻³²⁴. -/
theorem exponent_eq_of_spacing {spacing : ℚ} {before : Nat} {e : Int} (above : 49 * 10 ^ (-325 : Int) < spacing)
    (below : spacing < 50 * 10 ^ (-325 : Int)) (lower : before * spacing + (before + 1) * spacing ≤ 2 * (9 * 10 ^ e))
    (upper : 2 * (10 * 10 ^ e) ≤ (before + 1) * spacing + (before + 1 + 1) * spacing) : e = 1 + -325 := by
  have base : (1 : ℚ) < 10 := by norm_num
  have grid : (0 : ℚ) < 10 ^ (-325 : Int) := zpow_pos (by norm_num) _
  have most : e < 2 + -325 := by
    rw [← zpow_lt_zpow_iff_right₀ base, zpow_add₀ (by norm_num)]
    norm_num1
    linarith
  have least : -325 < e := by
    have before_nonneg : (0 : ℚ) ≤ before * spacing := mul_nonneg (Nat.cast_nonneg _) (by linarith)
    rw [← zpow_lt_zpow_iff_right₀ base]
    linarith
  omega

/-- If a power of ten and nine tenths of it are nearest to one rank, the power is nearer to its magnitude. That
is so for the second rank only. -/
theorem middle_lt_of_nearest {rank : Nat} {e : Int} (pos : 0 < rank) (nine : Nearest (9 * 10 ^ e) rank)
    (ten : Nearest (10 * 10 ^ e) rank) : 19 * 10 ^ e < 2 * magnitude rank := by
  by_contra far
  rw [not_lt] at far
  have upper := (ten.le_middle (Nat.lt_succ_self _)).1
  have lower := (nine.middle_le (Nat.sub_lt pos Nat.one_pos)).1
  have few : rank < 10 := lt_ten_of_near far (by linarith)
  rcases exists_spacing with ⟨spacing, above, below, magnitude_eq⟩
  obtain ⟨before, rfl⟩ : ∃ before, rank = before + 1 := ⟨rank - 1, by omega⟩
  have units_eq : ∀ r < 11, magnitude r = r * spacing := by
    intro r less
    rw [magnitude_eq, units_of_lt (by rw [binade_eq]; omega)]
  rw [Nat.add_sub_cancel, units_eq _ (by omega), units_eq _ (by omega)] at lower
  rw [units_eq _ (by omega), units_eq _ (by omega)] at upper
  rw [units_eq _ (by omega)] at far
  push_cast at far lower upper
  obtain rfl := exponent_eq_of_spacing above below lower upper
  rw [zpow_add₀ (by norm_num), zpow_one] at far lower upper
  have grid : (0 : ℚ) < 10 ^ (-325 : Int) := zpow_pos (by norm_num) _
  generalize (10 : ℚ) ^ (-325 : Int) = unit at *
  have second : before < 2 := by
    by_contra large
    have many : (2 : ℚ) ≤ before := by exact_mod_cast not_lt.1 large
    have product : 2 * spacing ≤ before * spacing := mul_le_mul_of_nonneg_right many (by linarith)
    linarith
  rcases (by omega : before = 0 ∨ before = 1) with rfl | rfl
  · norm_num at upper
    linarith
  · norm_num at far
    linarith

/-- A decimal on a finer grid that has no more digits is further away than the shortest, for then both have one
digit and a power of ten is between them. -/
theorem dist_shortest_lt_of_finer (tie : Tie) (nonzero : x.rank ≠ 0) {m length : Nat} {e : Int}
    (nearest : Nearest (m * 10 ^ e) x.rank) (short : m < 10 ^ (length + 1))
    (long : 10 ^ length ≤ (x.shortest tie).significand) (finer : e < (x.shortest tie).exponent) :
    |magnitude x.rank - (x.shortest tie).magnitude| < |magnitude x.rank - m * 10 ^ e| := by
  have own : Nearest (x.shortest tie).magnitude x.rank := (x.shortest_roundsTo tie).nearest
  have ten : (10 : ℚ) ≠ 0 := by norm_num
  have step : (10 : ℚ) ^ (x.shortest tie).exponent = 10 * 10 ^ ((x.shortest tie).exponent - 1) := by
    rw [zpow_sub_one₀ ten, mul_comm, inv_mul_cancel_right₀ ten]
  have unit : (10 : ℚ) ^ e ≤ 10 ^ ((x.shortest tie).exponent - 1) :=
    zpow_le_zpow_right₀ (by norm_num) (by omega)
  cases length with
  | zero =>
      have below : (m * 10 ^ e : ℚ) ≤ 9 * 10 ^ ((x.shortest tie).exponent - 1) := by
        have digit : (m : ℚ) ≤ 9 := by exact_mod_cast (show m ≤ 9 by omega)
        exact mul_le_mul digit unit (zpow_nonneg (by norm_num) _) (by norm_num)
      have above : (10 * 10 ^ ((x.shortest tie).exponent - 1) : ℚ) ≤ (x.shortest tie).magnitude := by
        have some : (1 : ℚ) ≤ (x.shortest tie).significand := by exact_mod_cast long
        rw [← step]
        exact le_mul_of_one_le_left (zpow_nonneg (by norm_num) _) some
      have unitPos : (0 : ℚ) < 10 ^ ((x.shortest tie).exponent - 1) := zpow_pos (by norm_num) _
      have nine := nearest.between own below (le_trans (by linarith) above)
      have power := nearest.between own (le_trans below (by linarith)) above
      have middle := middle_lt_of_nearest (Nat.pos_of_ne_zero nonzero) nine power
      -- The power is as far away as the shortest decimal, or further.
      have least := dist_shortest_le tie nonzero (q := 1) (by rwa [Nat.cast_one, one_mul, step])
      rw [Nat.cast_one, one_mul, step] at least
      refine least.trans_lt (lt_of_lt_of_le (abs_lt.2 ⟨?_, ?_⟩) (le_abs_self _))
      · linarith
      · linarith
  | succ length =>
      -- The power of ten between the two is on the next coarser grid.
      refine absurd (nearest.between own ?_ ?_) (not_nearest_tenfold tie nonzero (10 ^ length))
      · rw [step, mul_assoc, ← mul_assoc 10 (10 : ℚ), ← mul_assoc]
        have le : (m : ℚ) ≤ (10 ^ length : ℕ) * (10 * 10) := by
          exact_mod_cast (show m ≤ 10 ^ length * (10 * 10) by rw [Nat.pow_succ, Nat.pow_succ] at short; omega)
        exact mul_le_mul le unit (zpow_nonneg (by norm_num) _) (by positivity)
      · have le : ((10 ^ length : ℕ) * 10 : ℚ) ≤ (x.shortest tie).significand := by
          rw [Nat.pow_succ] at long
          exact_mod_cast long
        exact mul_le_mul_of_nonneg_right le (zpow_nonneg (by norm_num) _)

/-- What the shortest decimal is among all that round to the number and have no more digits: it is the nearest,
and of one that is as near, which is then on the same grid, the rule for ties decides. -/
theorem shortest_preferred (tie : Tie) (nonzero : x.rank ≠ 0) {m length : Nat} {e : Int}
    (nearest : Nearest (m * 10 ^ e) x.rank) (short : m < 10 ^ (length + 1))
    (long : 10 ^ length ≤ (x.shortest tie).significand) :
    m * 10 ^ e = (x.shortest tie).magnitude ∨
      |magnitude x.rank - (x.shortest tie).magnitude| < |magnitude x.rank - m * 10 ^ e| ∨
        (e = (x.shortest tie).exponent ∧
          |magnitude x.rank - (x.shortest tie).magnitude| = |magnitude x.rank - m * 10 ^ e| ∧
            tie.Prefers (x.shortest tie).significand m) := by
  rcases lt_trichotomy e (x.shortest tie).exponent with finer | rfl | coarser
  · exact .inr (.inl (dist_shortest_lt_of_finer tie nonzero nearest short long finer))
  · by_cases same : m = (x.shortest tie).significand
    · exact .inl (by rw [same, Decimal.magnitude])
    · rcases outranks_shortest tie nonzero nearest same with nearer | ⟨equal, prefers⟩
      · exact .inr (.inl nearer)
      · exact .inr (.inr ⟨rfl, equal, prefers⟩)
  · exact absurd nearest (not_nearest_of_coarser tie nonzero coarser m)

end Binary64
end JsonStream
