import JsonStream.Proofs.Grammar.Faults

/-!
# Numbers are exact

The number that a literal is read as, said of signed values and of finite numbers only: it is the nearest of
them to the value of the numeral, and the even one of two that are equally near. There is one exactly if the
value is within the range of binary64, and the literals meant are all those that a session can hold.

- `Decimal.roundsTo_iff` — rounding of magnitudes to ranks is rounding of values to finite numbers
- `Decimal.exists_roundsTo_iff` — the range
- `Tree.accumulated_iff` — the literals that a session can hold
- `Tree.finalize_exact` — what they are read as
-/

namespace JsonStream

/-! ## Signed values -/

namespace Binary64

variable {x y : Binary64}

theorem bits_mod_two (x : Binary64) : x.bits % 2 = x.rank % 2 := by
  unfold bits
  rw [Nat.add_mod]
  cases x.negative <;> simp

/-- The exponent of the interchange format is never that of infinities and NaNs. -/
theorem exponent_ne (x : Binary64) : x.bits / 2 ^ 52 % 2 ^ 11 ≠ 2047 := by
  have finite := x.rank_lt
  simp only [rankLimit, binade_eq] at finite
  unfold bits
  cases x.negative <;> simp only [Nat.pow_eq, Bool.false_eq_true, if_false, if_true] <;> omega

theorem magnitude_zero : magnitude 0 = 0 := by
  rw [magnitude_eq, units_of_lt (by decide)]
  simp

theorem magnitude_nonneg (rank : Nat) : 0 ≤ magnitude rank := by
  rw [← magnitude_zero]
  exact magnitude_strictMono.monotone (Nat.zero_le rank)

theorem abs_toRat (x : Binary64) : |x.toRat| = magnitude x.rank := by
  unfold toRat
  split
  · rw [abs_neg, abs_of_nonneg (magnitude_nonneg x.rank)]
  · exact abs_of_nonneg (magnitude_nonneg x.rank)

/-- Equal rationals have equal ranks; only the sign of zero is lost. -/
theorem rank_eq_of_toRat_eq (equal : x.toRat = y.toRat) : x.rank = y.rank := by
  apply magnitude_strictMono.injective
  rw [← abs_toRat, ← abs_toRat, equal]

end Binary64

namespace Decimal

open Binary64

variable {d : Decimal} {x : Binary64} {literal : Bytes}

theorem magnitude_nonneg (d : Decimal) : 0 ≤ d.magnitude := by
  exact mul_nonneg (Nat.cast_nonneg _) (zpow_nonneg (by norm_num) _)

theorem abs_toRat (d : Decimal) : |d.toRat| = d.magnitude := by
  unfold toRat
  split
  · rw [abs_neg, abs_of_nonneg d.magnitude_nonneg]
  · exact abs_of_nonneg d.magnitude_nonneg

/-- Between numbers of one sign the distance is that of the magnitudes. -/
theorem dist_of_sign (sign : x.negative = d.negative) :
    |d.toRat - x.toRat| = |d.magnitude - Binary64.magnitude x.rank| := by
  unfold toRat Binary64.toRat
  rw [sign]
  split
  · rw [neg_sub_neg, abs_sub_comm]
  · rfl

/-- Otherwise it is at least that. -/
theorem dist_magnitude_le (d : Decimal) (x : Binary64) :
    |d.magnitude - Binary64.magnitude x.rank| ≤ |d.toRat - x.toRat| := by
  rw [← abs_toRat, ← Binary64.abs_toRat]
  exact abs_abs_sub_abs_le _ _

/-- The signed number nearest in value is the one whose rank is nearest in magnitude. -/
theorem RoundsTo.nearestTo (rounds : d.RoundsTo x) : NearestTo d.toRat x := by
  have near : ∀ y : Binary64, |d.toRat - x.toRat| ≤ |d.magnitude - Binary64.magnitude y.rank| := by
    intro y
    have closest := rounds.nearest.closest y.rank
    rw [Binary64.abs_eq, Binary64.abs_eq] at closest
    rwa [dist_of_sign rounds.sign]
  constructor
  · intro y
    rw [Binary64.abs_eq, Binary64.abs_eq]
    exact (near y).trans (d.dist_magnitude_le y)
  · intro y differ tie
    rw [Binary64.abs_eq, Binary64.abs_eq] at tie
    rw [bits_mod_two]
    by_cases rank : y.rank = x.rank
    -- A tie of two numbers with one magnitude is a tie at zero, which is even.
    · have opposite : y.toRat = -x.toRat := by
        have abs : |y.toRat| = |x.toRat| := by rw [Binary64.abs_toRat, Binary64.abs_toRat, rank]
        exact (abs_eq_abs.1 abs).resolve_left differ
      have middle := middle_of_dist_eq (Ne.symm differ) tie
      rw [opposite, add_neg_cancel] at middle
      have zero : d.toRat = 0 := by linarith
      have none : d.magnitude = 0 := by rw [← abs_toRat, zero, abs_zero]
      have least := near (.zero false)
      rw [dist_of_sign rounds.sign, none, Binary64.zero, magnitude_zero, zero_sub, abs_neg, sub_zero,
        abs_zero, abs_of_nonneg (Binary64.magnitude_nonneg x.rank)] at least
      have first : x.rank = 0 := by
        apply magnitude_strictMono.injective
        rw [magnitude_zero]
        exact le_antisymm least (Binary64.magnitude_nonneg x.rank)
      rw [first]
    · have further := d.dist_magnitude_le y
      rw [tie] at further
      have same : |d.magnitude - Binary64.magnitude y.rank| = |d.magnitude - Binary64.magnitude x.rank| := by
        rw [← dist_of_sign rounds.sign]
        exact le_antisymm further (near y)
      exact rounds.nearest.even_of_tie y.rank rank (by rw [abs_eq, abs_eq, same])

/-- Ranks that are too large take no part, if the decimal is in range. -/
theorem roundsTo_of_nearestTo (sign : x.negative = d.negative) (range : |d.toRat| < 2 ^ 1024 - 2 ^ 970)
    (nearest : NearestTo d.toRat x) : d.RoundsTo x := by
  rw [abs_toRat] at range
  have finite : ∀ rank (small : rank < rankLimit),
      |d.magnitude - Binary64.magnitude x.rank| ≤ |d.magnitude - Binary64.magnitude rank| := by
    intro rank small
    have closest := nearest.closest ⟨d.negative, rank, small⟩
    rwa [abs_eq, abs_eq, dist_of_sign sign, dist_of_sign rfl] at closest
  have large : ∀ rank, rankLimit ≤ rank →
      |d.magnitude - Binary64.magnitude x.rank| < |d.magnitude - Binary64.magnitude rank| := by
    intro rank beyond
    exact (finite (rankLimit - 1) (by decide)).trans_lt (dist_top_lt range beyond)
  refine ⟨sign, ?_, ?_⟩
  · intro rank
    rw [Binary64.abs_eq, Binary64.abs_eq]
    rcases Nat.lt_or_ge rank rankLimit with small | beyond
    · exact finite rank small
    · exact (large rank beyond).le
  · intro rank differ tie
    rw [Binary64.abs_eq, Binary64.abs_eq] at tie
    rcases Nat.lt_or_ge rank rankLimit with small | beyond
    · rw [← bits_mod_two]
      apply nearest.even_of_tie ⟨d.negative, rank, small⟩
      · intro equal
        exact differ (rank_eq_of_toRat_eq equal)
      · rw [abs_eq, abs_eq, dist_of_sign rfl, dist_of_sign sign, tie]
    · exact absurd tie (large rank beyond).ne'

/-- A decimal has a nearest rank that is finite exactly if it is in range. -/
theorem exists_roundsTo_iff : (∃ x, d.RoundsTo x) ↔ |d.toRat| < 2 ^ 1024 - 2 ^ 970 := by
  rw [abs_toRat]
  constructor
  · rintro ⟨x, rounds⟩
    exact (lt_rankLimit_iff rounds.nearest).1 x.rank_lt
  · intro range
    rcases nearestRank_spec d.significand d.exponent with nearest | ⟨-, large⟩
    · exact ⟨⟨d.negative, _, (lt_rankLimit_iff nearest).2 range⟩, rfl, nearest⟩
    · have bound : (2 : ℚ) ^ 1024 - 2 ^ 970 ≤ 2 ^ 1024 := sub_le_self _ (by positivity)
      exact absurd (range.trans_le bound) (not_lt.2 large)

/-- Rounding said with rationals: the number is the nearest of all, in a range that ends halfway to the next
power of two. -/
theorem roundsTo_iff :
    d.RoundsTo x ↔
      x.negative = d.negative ∧ |d.toRat| < 2 ^ 1024 - 2 ^ 970 ∧ NearestTo d.toRat x := by
  constructor
  · intro rounds
    exact ⟨rounds.sign, exists_roundsTo_iff.1 ⟨x, rounds⟩, rounds.nearestTo⟩
  · rintro ⟨sign, range, nearest⟩
    exact roundsTo_of_nearestTo sign range nearest

/-- A decimal is negative exactly if its numeral begins with a minus sign, also for zero. -/
theorem Numeral.negative_iff (numeral : Numeral literal d) :
    d.negative = true ↔ literal.head? = some Byte.minus := by
  cases numeral with
  | @intro negative s t n places e mantissa exponent =>
      rcases mantissa.head_ne_minus with ⟨b, rest, rfl, notMinus⟩
      cases negative with
      | true =>
          simp [sign]
      | false =>
          simp [sign, notMinus]

end Decimal

/-! ## Literals in progress -/

namespace Tree

/-- A literal that some session holds while it reads a number. -/
def Accumulated (literal : Array UInt8) : Prop :=
  ∃ o input s outer, (Session.start o).feedAll input = .ok s ∧ s.current = .live outer (.number literal)

inductive Literal : Bytes → Prop
  | intro {first : UInt8} {rest : Bytes} (starts : Byte.startsNumber first = true)
    (parts : ∀ b ∈ rest, Byte.inNumber b = true) : Literal (first :: rest)

/-- What a literal is read as when the number ends. -/
structure Exact (literal : Array UInt8) : Prop where
  reads_iff : ∀ x, numberOf literal = .ok (.number x) ↔
    ∃ d, Decimal.Numeral literal.toList d ∧ x.negative = d.negative ∧ |d.toRat| < 2 ^ 1024 - 2 ^ 970 ∧
      Binary64.NearestTo d.toRat x
  accepts : (∃ v, numberOf literal = .ok v) ↔
    ∃ d, Decimal.Numeral literal.toList d ∧ |d.toRat| < 2 ^ 1024 - 2 ^ 970
  nearest : ∀ v, numberOf literal = .ok v →
    ∃ d x, Decimal.Numeral literal.toList d ∧ Binary64.NearestTo d.toRat x ∧ v = .number x
  sign : ∀ x, numberOf literal = .ok (.number x) →
    (x.negative = true ↔ literal.toList.head? = some Byte.minus)
  finite : ∀ x, numberOf literal = .ok (.number x) → x.bits / 2 ^ 52 % 2 ^ 11 ≠ 2047
  refuses : (∀ v, numberOf literal ≠ .ok v) → numberOf literal = .error (.invalidNumber literal.toList)

variable {literal : Array UInt8}

/-- What a session holds of a number begins as numbers do and goes on with bytes of numbers. -/
theorem literal_of_accumulated (accumulated : Accumulated literal) : Literal literal.toList := by
  rcases accumulated with ⟨o, input, s, outer, run, reading⟩
  have treeRun := (Session.current_of_feedAll run).1
  rw [reading] at treeRun
  have parts : ∀ b ∈ literal.toList, Byte.inNumber b = true := numeric_of_feedAll treeRun
  have reads := Grammar.reads_of_feedAll treeRun
  cases reads with
  | number lead first fits =>
      rcases first with ⟨b, rest, content, starts⟩
      rw [content] at parts ⊢
      exact .intro starts fun c mem => parts c (List.mem_cons_of_mem _ mem)

/-- Every such literal is held by some session, whatever sense it makes. -/
theorem accumulated_of_literal (spelled : Literal literal.toList) : Accumulated literal := by
  generalize content : literal.toList = text at spelled
  cases spelled with
  | @intro first rest starts parts =>
      have unlimited : ∀ n, Grammar.Fits {} n := nofun
      have begins : Takes {} (.live [] .blank) first (.live [] (.number #[first])) [] :=
        .blankBegins (.number starts (unlimited 1))
      have grown : ∃ whole : Array UInt8, whole.toList = #[first].toList ++ rest ∧
          (live [] (.number #[first])).feedAll {} rest = .ok (.live [] (.number whole)) :=
        Grammar.feedAll_number parts (unlimited _)
      rcases grown with ⟨whole, wholeContent, run⟩
      have same : whole = literal := by
        apply Array.toList_inj.1
        rw [wholeContent, content]
        rfl
      rw [same] at run
      have fed : Tree.feedAll {} .empty (first :: rest) = .ok (.live [] (.number literal)) := by
        rw [Tree.empty, feedAll_cons_of_feed (feed_of_takes begins)]
        exact run
      rcases Session.exists_feedAll fed with ⟨s, sessionRun, current⟩
      exact ⟨_, _, s, [], sessionRun, current⟩

/-- The literals in progress are a digit or a minus sign and then any bytes that numbers may have. -/
theorem accumulated_iff : Accumulated literal ↔ Literal literal.toList :=
  ⟨literal_of_accumulated, accumulated_of_literal⟩

/-- The literals that are read as a number, by the grammar of numerals and by rounding. -/
theorem numberOf_eq_number_iff {x : Binary64} :
    numberOf literal = .ok (.number x) ↔ ∃ d, Decimal.Numeral literal.toList d ∧ d.RoundsTo x := by
  rw [numberOf_eq_ok_iff]
  simp only [Value.number.injEq, Binary64.read?_eq_some_iff, exists_eq_right']

/-- All that is said of a literal when its number ends holds of every literal. -/
theorem exact_numberOf (literal : Array UInt8) : Exact literal where
  reads_iff := by
    intro x
    rw [numberOf_eq_number_iff]
    exact exists_congr fun d => and_congr_right fun _ => Decimal.roundsTo_iff
  accepts := by
    constructor
    · rintro ⟨v, read⟩
      rcases numberOf_eq_ok_iff.1 read with ⟨x, -, rfl⟩
      rcases numberOf_eq_number_iff.1 read with ⟨d, numeral, rounds⟩
      exact ⟨d, numeral, Decimal.exists_roundsTo_iff.1 ⟨x, rounds⟩⟩
    · rintro ⟨d, numeral, range⟩
      rcases Decimal.exists_roundsTo_iff.2 range with ⟨x, rounds⟩
      exact ⟨_, numberOf_eq_number_iff.2 ⟨d, numeral, rounds⟩⟩
  nearest := by
    intro v read
    rcases numberOf_eq_ok_iff.1 read with ⟨x, -, rfl⟩
    rcases numberOf_eq_number_iff.1 read with ⟨d, numeral, rounds⟩
    exact ⟨d, x, numeral, rounds.nearestTo, rfl⟩
  sign := by
    intro x read
    rcases numberOf_eq_number_iff.1 read with ⟨d, numeral, rounds⟩
    rw [rounds.sign]
    exact numeral.negative_iff
  finite := fun x _ => x.exponent_ne
  refuses := by
    intro refused
    cases read : numberOf literal with
    | ok v =>
        exact absurd read (refused v)
    | error fault =>
        rw [(numberOf_eq_error_iff.1 read).2]

/-- Numbers are read exactly: a session can hold whatever begins with a digit or a minus sign and goes on with
bytes of numbers, and when the number ends it is the nearest finite number to the value of the numeral, or
refused. -/
theorem finalize_exact (literal : Array UInt8) :
    (Accumulated literal ↔ Literal literal.toList) ∧ (Accumulated literal → Exact literal) :=
  ⟨accumulated_iff, fun _ => exact_numberOf literal⟩

/-- The literal `-1e-400` underflows to the negative zero. -/
theorem finalize_exact_underflow :
    Accumulated #[0x2D, 0x31, 0x65, 0x2D, 0x34, 0x30, 0x30] ∧
      ∃ d, Decimal.Numeral [0x2D, 0x31, 0x65, 0x2D, 0x34, 0x30, 0x30] d ∧
        Binary64.NearestTo d.toRat (.zero true) := by
  have spelled : Literal (#[0x2D, 0x31, 0x65, 0x2D, 0x34, 0x30, 0x30] : Array UInt8).toList :=
    .intro (by decide) (by decide +kernel)
  have accumulated := (finalize_exact #[0x2D, 0x31, 0x65, 0x2D, 0x34, 0x30, 0x30]).1.2 spelled
  have exact := (finalize_exact #[0x2D, 0x31, 0x65, 0x2D, 0x34, 0x30, 0x30]).2 accumulated
  have read : Binary64.read? [0x2D, 0x31, 0x65, 0x2D, 0x34, 0x30, 0x30] = some (.zero true) := by
    decide +kernel
  rcases exact.nearest _ (numberOf_eq_ok_iff.2 ⟨_, read, rfl⟩) with ⟨d, x, numeral, nearest, same⟩
  cases same
  exact ⟨accumulated, d, numeral, nearest⟩

end Tree

end JsonStream
