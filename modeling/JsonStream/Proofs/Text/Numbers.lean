import JsonStream.Proofs.Binary64.Closest
import JsonStream.Proofs.Branch.Text
import JsonStream.Proofs.Decimal.Exact
import JsonStream.Proofs.Decimal.Rendering
import JsonStream.Proofs.Decimal.Significant

/-!
# Written numbers read back

A number is written in three layouts: plain, with exponents in dumps, and with exponents in the exchange
dialect. Each is a literal that is read as the same number, bit for bit, has as few significant digits as any,
and is as near to the number as any of those. All three show the same digits, unless the number is halfway
between two such literals: there the plain dialect and dumps show the larger magnitude, and the exchange dialect
shows the one whose last digit is even.

- `readsBack_render` — any layout and either rule for ties
- `lowerE_mem_iff` — where a layout with bounds has exponents
- `high_of_halfway`, `even_of_halfway`, `significant_eq_of_not_halfway` — the digits of the two rules
- `renderings_read_back`, `significant_digits_differ` — the three layouts
-/

namespace JsonStream.Text

open Binary64 (magnitude)
open Decimal (Numeral significant)
open Utf8 (encode)

variable {x : Binary64} {tie : Tie} {layout : Decimal.Layout} {text : Bytes}

/-! ## Reading back -/

/-- A text is a literal of a number. No literal of the number has fewer significant digits, and none that has as
few is nearer to it. -/
structure ReadsBack (x : Binary64) (text : Bytes) : Prop where
  starts : ∃ b rest, text = b :: rest ∧ Byte.startsNumber b = true
  parts : ∀ b ∈ text, Byte.inNumber b = true
  reads : numberOf text.toArray = .ok (.number x)
  fewest : ∀ other : Bytes, numberOf other.toArray = .ok (.number x) →
    (significant text).length ≤ (significant other).length
  nearest : ∀ (other : Bytes) (d e : Decimal), Numeral text d → Numeral other e →
    numberOf other.toArray = .ok (.number x) → (significant other).length = (significant text).length →
      |x.toRat - d.toRat| ≤ |x.toRat - e.toRat|

/-- A numeral of a number rounds to that number. -/
theorem roundsTo_of_reads {d : Decimal} (reads : numberOf text.toArray = .ok (.number x)) (numeral : Numeral text d) :
    d.RoundsTo x := by
  rcases Tree.numberOf_eq_number_iff.1 reads with ⟨e, same, rounds⟩
  rwa [numeral.unique (by simpa using same)]

/-- The distance of a numeral from its number is that of the magnitudes. -/
theorem dist_of_reads {d : Decimal} (reads : numberOf text.toArray = .ok (.number x)) (numeral : Numeral text d) :
    |x.toRat - d.toRat| = |magnitude x.rank - d.magnitude| := by
  rw [abs_sub_comm, Decimal.dist_of_sign (roundsTo_of_reads reads numeral).sign, abs_sub_comm]

/-- No numeral that rounds to the number has fewer significant digits than its shortest decimal. -/
theorem significant_length_le {other : Bytes} {d e : Decimal} (numeral : Numeral text d)
    (same : d.magnitude = (x.shortest tie).magnitude) (second : Numeral other e) (rounds : e.RoundsTo x) :
    (significant text).length ≤ (significant other).length := by
  rcases numeral.magnitude_eq with ⟨place, value⟩
  rcases second.magnitude_eq with ⟨otherPlace, otherValue⟩
  have scaled := value.symm.trans same
  rcases numeral.trimmed.exists_zeros scaled with ⟨zeros, whole⟩
  refine numeral.trimmed.length_le whole ?_
  by_cases zero : x.rank = 0
  · rw [Binary64.shortest, if_pos zero]
    exact Nat.pow_pos (by decide)
  · have nearest := rounds.nearest
    rw [otherValue] at nearest
    exact Binary64.significand_shortest_lt tie zero nearest (Decimal.ofDigits_lt second.trimmed.digits)

/-- The significant digits of a numeral of the shortest decimal spell its significand. -/
theorem ofDigits_significant {d : Decimal} (nonzero : x.rank ≠ 0) (numeral : Numeral text d)
    (same : d.magnitude = (x.shortest tie).magnitude) :
    Decimal.ofDigits (significant text) = (x.shortest tie).significand := by
  rcases numeral.magnitude_eq with ⟨place, value⟩
  rcases numeral.trimmed.exists_zeros (value.symm.trans same) with ⟨zeros, whole⟩
  cases zeros with
  | succ zeros =>
      rw [Nat.pow_succ, ← Nat.mul_assoc] at whole
      exact absurd (whole ▸ Nat.dvd_mul_left 10 _) (Binary64.not_dvd_significand_shortest tie nonzero)
  | zero =>
      rw [whole, Nat.pow_zero, Nat.mul_one]

/-- A numeral of the shortest decimal beside another literal with as many digits: it shows the same decimal or is
nearer, or else the rule for ties decides between their digits. -/
theorem preferred_of_reads {other : Bytes} {d e : Decimal} (nonzero : x.rank ≠ 0) (numeral : Numeral text d)
    (same : d.magnitude = (x.shortest tie).magnitude) (second : Numeral other e) (rounds : e.RoundsTo x)
    (length : (significant other).length = (significant text).length) :
    e.magnitude = d.magnitude ∨ |magnitude x.rank - d.magnitude| < |magnitude x.rank - e.magnitude| ∨
      (∃ place : Int, d.magnitude = Decimal.ofDigits (significant text) * 10 ^ place ∧
        e.magnitude = Decimal.ofDigits (significant other) * 10 ^ place ∧
          |magnitude x.rank - d.magnitude| = |magnitude x.rank - e.magnitude| ∧
            tie.Prefers (Decimal.ofDigits (significant text)) (Decimal.ofDigits (significant other))) := by
  have digits := ofDigits_significant nonzero numeral same
  rcases second.magnitude_eq with ⟨place, value⟩
  have nearest := rounds.nearest
  have nonempty : significant text ≠ [] := by
    intro none
    rw [none] at digits
    exact Binary64.not_dvd_significand_shortest tie nonzero (digits ▸ Nat.dvd_zero 10)
  obtain ⟨before, split⟩ : ∃ before, (significant text).length = before + 1 :=
    ⟨_, (Nat.succ_pred (List.length_pos_iff.2 nonempty).ne').symm⟩
  have short := Decimal.ofDigits_lt second.trimmed.digits
  have long := numeral.trimmed.pow_le nonempty
  rw [length, split] at short
  rw [split, Nat.add_sub_cancel, digits] at long
  rw [value] at nearest ⊢
  rw [digits, same]
  rcases Binary64.shortest_preferred tie nonzero nearest short long with equal | nearer | ⟨rfl, equal, prefers⟩
  · exact .inl equal
  · exact .inr (.inl nearer)
  · exact .inr (.inr ⟨_, rfl, rfl, equal, prefers⟩)

/-- Of all numerals with as many digits that are read as the number, the shortest decimal is nearest. -/
theorem nearest_of_reads {other : Bytes} {d e : Decimal} (numeral : Numeral text d)
    (same : d.magnitude = (x.shortest tie).magnitude) (second : Numeral other e) (rounds : e.RoundsTo x)
    (length : (significant other).length = (significant text).length) :
    |magnitude x.rank - d.magnitude| ≤ |magnitude x.rank - e.magnitude| := by
  by_cases zero : x.rank = 0
  · rw [same, zero, Binary64.magnitude_zero, Binary64.shortest, if_pos zero, Decimal.magnitude, Nat.cast_zero,
      zero_mul, sub_zero, abs_zero]
    exact abs_nonneg _
  · rcases preferred_of_reads zero numeral same second rounds length with equal | nearer | ⟨-, -, -, equal, -⟩
    · rw [equal]
    · exact nearer.le
    · exact equal.le

/-- Every layout of the shortest decimal reads back, with either rule for ties. -/
theorem readsBack_render (layout : Decimal.Layout) (tie : Tie) (x : Binary64) :
    ReadsBack x (encode ((x.shortest tie).render layout)) := by
  obtain ⟨⟨d, numeral, sign, magnitude⟩, first⟩ := Decimal.writes_render layout (x.shortest tie)
  have rounds := (x.shortest_roundsTo tie).of_eq sign magnitude
  have reads : numberOf (encode ((x.shortest tie).render layout)).toArray = .ok (.number x) :=
    Tree.numberOf_eq_number_iff.2 ⟨d, by simpa using numeral, rounds⟩
  refine ⟨first, numeral.inNumber, reads, ?_, ?_⟩
  · intro other read
    rcases Tree.numberOf_eq_number_iff.1 read with ⟨e, second, otherRounds⟩
    exact significant_length_le numeral magnitude (by simpa using second) otherRounds
  · intro other d' e own second read length
    rw [own.unique numeral, dist_of_reads reads numeral, dist_of_reads read second]
    exact nearest_of_reads numeral magnitude second (roundsTo_of_reads read second) length

/-! ## Exponents -/

theorem toRat_ne_zero_iff : x.toRat ≠ 0 ↔ x.rank ≠ 0 := by
  rw [ne_eq, ← abs_eq_zero, Binary64.abs_toRat, ← Binary64.magnitude_zero,
    Binary64.magnitude_strictMono.injective.eq_iff]

theorem significand_ne_zero (tie : Tie) (nonzero : x.rank ≠ 0) : (x.shortest tie).significand ≠ 0 := by
  intro none
  exact Binary64.not_dvd_significand_shortest tie nonzero (none ▸ Nat.dvd_zero 10)

/-- The bounds of a layout can be compared with numbers in the place of their shortest decimals. -/
def Separates (tie : Tie) (p : Int) : Prop :=
  ∀ x : Binary64, (x.shortest tie).magnitude < 10 ^ p ↔ magnitude x.rank < 10 ^ p

/-- Shortest decimals are ordered as the numbers are, so a power of ten that is one separates them. -/
theorem separates_of (y : Binary64) {p : Int} (written : y.shortest tie = ⟨false, 1, p⟩)
    (le : (10 : ℚ) ^ p ≤ magnitude y.rank) : Separates tie p := by
  intro x
  refine Binary64.magnitude_shortest_lt_iff tie ?_ le
  rw [written, Decimal.magnitude, Nat.cast_one, one_mul]

/-- A power of ten with an integer exponent as a fraction of powers with natural ones. -/
theorem ten_zpow_eq_div (p : Int) : (10 : ℚ) ^ p = (10 ^ p.toNat : ℕ) / (10 ^ (-p).toNat : ℕ) := by
  cases p with
  | ofNat n =>
      simp
  | negSucc n =>
      simp [zpow_negSucc]

/-- It is enough to look at the number of the power itself, given by its rank. -/
theorem separates_of_rank (tie : Tie) (p : Int) (rank : Nat) (finite : rank < Binary64.rankLimit)
    (written : Binary64.shortest tie ⟨false, rank, finite⟩ = ⟨false, 1, p⟩)
    (le : 10 ^ p.toNat * Nat.pow 2 1074 ≤ Binary64.units rank * 10 ^ (-p).toNat) : Separates tie p := by
  refine separates_of ⟨false, rank, finite⟩ written ?_
  rw [ten_zpow_eq_div, Binary64.magnitude_eq]
  -- The power is too large to be computed.
  generalize 1074 = k at le ⊢
  have denPos : (0 : ℚ) < (10 ^ (-p).toNat : ℕ) := by exact_mod_cast Nat.pow_pos (by decide)
  have scale : (0 : ℚ) < 2 ^ k := pow_pos (by norm_num) k
  rw [div_le_div_iff₀ denPos scale]
  exact_mod_cast le

/-- A layout with bounds writes an exponent for the numbers that are out of them, but not for zero. -/
theorem lowerE_mem_iff {low high : Int} (bounds : layout.positional = some (low, high))
    (zeroInside : low ≤ 0 ∧ 0 < high) (lower : Separates tie low) (upper : Separates tie high) :
    Byte.lowerE ∈ encode ((x.shortest tie).render layout) ↔
      x.toRat ≠ 0 ∧ (|x.toRat| < 10 ^ low ∨ 10 ^ high ≤ |x.toRat|) := by
  rw [Decimal.lowerE_mem_render_iff, Decimal.Layout.isPositional, bounds, Binary64.abs_toRat, toRat_ne_zero_iff]
  simp only [decide_eq_false_iff_not]
  by_cases zero : x.rank = 0
  · have place : (x.shortest tie).leadingPlace = 0 := by
      rw [Binary64.shortest, if_pos zero, Decimal.leadingPlace, Nat.toDigits_zero]
      rfl
    rw [place]
    simp [zero, zeroInside]
  · have some := significand_ne_zero tie zero
    rw [not_and_or, Int.not_le, Decimal.leadingPlace_lt_iff some, Decimal.leadingPlace_lt_iff some, lower x,
      upper x, not_lt]
    simp [zero]

/-! ## Digits -/

def Agree (first second : Bytes) : Prop :=
  ∃ d e, Numeral first d ∧ Numeral second e ∧ d.toRat = e.toRat

def EvenLast (text : Bytes) : Prop :=
  ∃ b, (significant text).getLast? = some b ∧ Byte.digitValue b % 2 = 0

/-- The number is between two literals that both read back. Neither is nearer than the other, so it is halfway
between them, and it has no literal of its own with as few digits. -/
structure Halfway (x : Binary64) (low high : Bytes) : Prop where
  reads_low : ReadsBack x low
  reads_high : ReadsBack x high
  between : ∃ d e, Numeral low d ∧ Numeral high e ∧ |d.toRat| < |x.toRat| ∧ |x.toRat| < |e.toRat|

/-- A literal of the shortest decimal of a number under a rule for ties. -/
structure Shows (x : Binary64) (tie : Tie) (text : Bytes) (d : Decimal) : Prop where
  numeral : Numeral text d
  same : d.magnitude = (x.shortest tie).magnitude
  reads : ReadsBack x text

variable {other low high : Bytes} {d e : Decimal}

/-- The text of a layout shows the shortest decimal. -/
theorem exists_shows (layout : Decimal.Layout) (tie : Tie) (x : Binary64) :
    ∃ d, Shows x tie (encode ((x.shortest tie).render layout)) d := by
  obtain ⟨d, numeral, -, magnitude⟩ := (Decimal.writes_render layout (x.shortest tie)).numeral
  exact ⟨d, numeral, magnitude, readsBack_render layout tie x⟩

/-- Two texts that read back have equally many significant digits. -/
theorem ReadsBack.length_eq (first : ReadsBack x text) (second : ReadsBack x other) :
    (significant other).length = (significant text).length :=
  Nat.le_antisymm (second.fewest text first.reads) (first.fewest other second.reads)

/-- Two texts that read back are equally near to the number. -/
theorem ReadsBack.dist_eq (first : ReadsBack x text) (second : ReadsBack x other) (numeral : Numeral text d)
    (otherNumeral : Numeral other e) : |magnitude x.rank - d.magnitude| = |magnitude x.rank - e.magnitude| := by
  have le := first.nearest other d e numeral otherNumeral second.reads (first.length_eq second)
  have ge := second.nearest text e d otherNumeral numeral first.reads (second.length_eq first)
  rw [← dist_of_reads first.reads numeral, ← dist_of_reads second.reads otherNumeral]
  exact le_antisymm le ge

/-- Texts of one magnitude that read back have the same significant digits. -/
theorem agree_of_magnitude (first : ReadsBack x text) (second : ReadsBack x other) (numeral : Numeral text d)
    (otherNumeral : Numeral other e) (same : e.magnitude = d.magnitude) : Agree text other := by
  have sign :=
    (roundsTo_of_reads first.reads numeral).sign.symm.trans (roundsTo_of_reads second.reads otherNumeral).sign
  refine ⟨d, e, numeral, otherNumeral, ?_⟩
  rw [Decimal.toRat, Decimal.toRat, sign, same]

theorem Agree.significant_eq (agree : Agree text other) : significant text = significant other := by
  rcases agree with ⟨d, e, numeral, second, same⟩
  refine Decimal.significant_eq numeral second ?_
  rw [← Decimal.abs_toRat, ← Decimal.abs_toRat, same]

/-- Beside the literal of a shortest decimal, another that reads back as well either agrees with it or loses by
the rule for ties. -/
theorem Shows.preferred (shows : Shows x tie text d) (nonzero : x.rank ≠ 0) (second : ReadsBack x other)
    (numeral : Numeral other e) :
    e.magnitude = d.magnitude ∨
      ∃ place : Int, d.magnitude = Decimal.ofDigits (significant text) * 10 ^ place ∧
        e.magnitude = Decimal.ofDigits (significant other) * 10 ^ place ∧
          tie.Prefers (Decimal.ofDigits (significant text)) (Decimal.ofDigits (significant other)) := by
  rcases preferred_of_reads nonzero shows.numeral shows.same numeral (roundsTo_of_reads second.reads numeral)
    (shows.reads.length_eq second) with equal | nearer | ⟨place, value, otherValue, -, prefers⟩
  · exact .inl equal
  · exact absurd (shows.reads.dist_eq second shows.numeral numeral) nearer.ne
  · exact .inr ⟨place, value, otherValue, prefers⟩

/-- The number has digits. -/
theorem Shows.nonempty (shows : Shows x tie text d) (nonzero : x.rank ≠ 0) : significant text ≠ [] := by
  intro none
  have digits := ofDigits_significant nonzero shows.numeral shows.same
  rw [none] at digits
  exact Binary64.not_dvd_significand_shortest tie nonzero (digits ▸ Nat.dvd_zero 10)

/-- The last digit is even exactly if the digits spell an even integer. -/
theorem evenLast_iff (nonempty : significant text ≠ []) :
    EvenLast text ↔ Decimal.ofDigits (significant text) % 2 = 0 := by
  rcases (List.eq_nil_or_concat' (significant text)).resolve_left nonempty with ⟨init, b, split⟩
  rw [EvenLast, split, Decimal.ofDigits_concat, List.getLast?_concat]
  constructor
  · rintro ⟨b, ⟨⟩, even⟩
    omega
  · intro even
    exact ⟨b, rfl, by omega⟩

theorem EvenLast.congr (same : significant text = significant other) : EvenLast text ↔ EvenLast other := by
  rw [EvenLast, EvenLast, same]

/-- Texts that agree are of one magnitude. -/
theorem Agree.magnitude_eq (agree : Agree text other) (numeral : Numeral text d) (second : Numeral other e) :
    d.magnitude = e.magnitude := by
  rcases agree with ⟨d', e', first, last, same⟩
  rw [numeral.unique first, second.unique last, ← Decimal.abs_toRat, ← Decimal.abs_toRat, same]

/-- The number is strictly between the two, and so is not zero. -/
theorem Halfway.magnitudes (halfway : Halfway x low high) :
    x.rank ≠ 0 ∧ ∃ d e, Numeral low d ∧ Numeral high e ∧
      d.magnitude < magnitude x.rank ∧ magnitude x.rank < e.magnitude := by
  obtain ⟨d, e, numeral, second, below, above⟩ := halfway.between
  rw [Binary64.abs_toRat, Decimal.abs_toRat] at below above
  refine ⟨fun zero => ?_, d, e, numeral, second, below, above⟩
  rw [zero, Binary64.magnitude_zero] at below
  exact absurd d.magnitude_nonneg (not_le.2 below)

/-- Halfway between two literals the first rule takes the larger. -/
theorem high_of_halfway (shows : Shows x .up text d) (halfway : Halfway x low high) : Agree text high := by
  obtain ⟨nonzero, -, e, -, second, -, above⟩ := halfway.magnitudes
  rcases shows.preferred nonzero halfway.reads_high second with equal | ⟨place, value, otherValue, smaller⟩
  · exact agree_of_magnitude shows.reads halfway.reads_high shows.numeral second equal
  · -- It would be beyond the larger, and further away.
    have less : e.magnitude < d.magnitude := by
      rw [value, otherValue]
      exact mul_lt_mul_of_pos_right (by exact_mod_cast smaller) (zpow_pos (by norm_num) _)
    have dist := shows.reads.dist_eq halfway.reads_high shows.numeral second
    rw [abs_of_neg (by linarith), abs_of_neg (by linarith)] at dist
    linarith

/-- The second rule decides by the last digits. -/
theorem agree_or_odd (shows : Shows x .even text d) (nonzero : x.rank ≠ 0) (second : ReadsBack x other)
    (numeral : Numeral other e) : Agree text other ∨ (EvenLast text ∧ ¬ EvenLast other) := by
  have nonempty := shows.nonempty nonzero
  have otherNonempty : significant other ≠ [] := by
    rw [← List.length_pos_iff, shows.reads.length_eq second]
    exact List.length_pos_iff.2 nonempty
  rcases shows.preferred nonzero second numeral with equal | ⟨-, -, -, even, odd⟩
  · exact .inl (agree_of_magnitude shows.reads second shows.numeral numeral equal)
  · refine .inr ⟨(evenLast_iff nonempty).2 even, fun otherEven => ?_⟩
    rw [evenLast_iff otherNonempty, odd] at otherEven
    cases otherEven

/-- Halfway between two literals the second rule takes the one whose last digit is even, and that is one only. -/
theorem even_of_halfway (shows : Shows x .even text d) (halfway : Halfway x low high) :
    (EvenLast low ∧ ¬ EvenLast high ∧ Agree text low) ∨ (EvenLast high ∧ ¬ EvenLast low ∧ Agree text high) := by
  obtain ⟨nonzero, e, f, first, second, below, above⟩ := halfway.magnitudes
  rcases agree_or_odd shows nonzero halfway.reads_low first with low | ⟨even, lowOdd⟩
  · rcases agree_or_odd shows nonzero halfway.reads_high second with high | ⟨even, highOdd⟩
    · have equal := (low.magnitude_eq shows.numeral first).symm.trans (high.magnitude_eq shows.numeral second)
      linarith
    · exact .inl ⟨(EvenLast.congr low.significant_eq).1 even, highOdd, low⟩
  · rcases agree_or_odd shows nonzero halfway.reads_high second with high | ⟨-, highOdd⟩
    · exact .inr ⟨(EvenLast.congr high.significant_eq).1 even, lowOdd, high⟩
    · -- It is as far from the number as both, and so it is one of them.
      have notLow : e.magnitude ≠ d.magnitude := fun equal =>
        lowOdd ((EvenLast.congr (Decimal.significant_eq first shows.numeral equal)).2 even)
      have notHigh : f.magnitude ≠ d.magnitude := fun equal =>
        highOdd ((EvenLast.congr (Decimal.significant_eq second shows.numeral equal)).2 even)
      have lowMiddle := Binary64.middle_of_dist_eq notLow
        (shows.reads.dist_eq halfway.reads_low shows.numeral first)
      have highMiddle := Binary64.middle_of_dist_eq notHigh
        (shows.reads.dist_eq halfway.reads_high shows.numeral second)
      linarith

/-- Where the number is not halfway between two literals, the rules take the same digits. -/
theorem significant_eq_of_not_halfway (up : Shows x .up text d) (even : Shows x .even other e)
    (none : ∀ low high, ¬ Halfway x low high) : significant other = significant text := by
  by_cases zero : x.rank = 0
  · refine Decimal.significant_eq even.numeral up.numeral ?_
    rw [even.same, up.same, Binary64.shortest, Binary64.shortest, if_pos zero, if_pos zero]
  · rcases up.preferred zero even.reads even.numeral with equal | ⟨place, value, otherValue, smaller⟩
    · exact Decimal.significant_eq even.numeral up.numeral equal
    · have less : e.magnitude < d.magnitude := by
        rw [value, otherValue]
        exact mul_lt_mul_of_pos_right (by exact_mod_cast smaller) (zpow_pos (by norm_num) _)
      have middle := Binary64.middle_of_dist_eq less.ne (up.reads.dist_eq even.reads up.numeral even.numeral)
      refine absurd ⟨even.reads, up.reads, e, d, even.numeral, up.numeral, ?_, ?_⟩ (none other text)
      · rw [Binary64.abs_toRat, Decimal.abs_toRat]
        linarith
      · rw [Binary64.abs_toRat, Decimal.abs_toRat]
        linarith

/-! ## The three layouts -/

/-- What is said of the literals of a number in plain text, in dumps and in exchange text. -/
structure Renderings (x : Binary64) (plain dump exchange : Bytes) : Prop where
  reads_plain : ReadsBack x plain
  reads_dump : ReadsBack x dump
  reads_exchange : ReadsBack x exchange
  plain_exponent : ∀ b ∈ plain, Byte.isDigit b = true ∨ b = Byte.point ∨ b = Byte.minus
  dump_exponent : Byte.lowerE ∈ dump ↔
    x.toRat ≠ 0 ∧ (|x.toRat| < 10 ^ (-4 : Int) ∨ 10 ^ (16 : Int) ≤ |x.toRat|)
  exchange_exponent : Byte.lowerE ∈ exchange ↔
    x.toRat ≠ 0 ∧ (|x.toRat| < 10 ^ (-5 : Int) ∨ 10 ^ (16 : Int) ≤ |x.toRat|)
  dump_digits : significant dump = significant plain
  exchange_digits : (∀ low high, ¬ Halfway x low high) → significant exchange = significant plain
  plain_halfway : ∀ low high, Halfway x low high → Agree plain high
  dump_halfway : ∀ low high, Halfway x low high → Agree dump high
  exchange_halfway : ∀ low high, Halfway x low high →
    (EvenLast low ∧ ¬ EvenLast high ∧ Agree exchange low) ∨ (EvenLast high ∧ ¬ EvenLast low ∧ Agree exchange high)

/-- The dump of a number is one record, in which the number is a field. -/
theorem dump_number (x : Binary64) :
    (Tree.ofValue (.number x)).branch.dump =
      "Node \x7b kind: Some(Number), number: " ++ String.ofList ((x.shortest .up).render dumpLayout) ++ " \x7d" := by
  rw [Tree.dump_branch, ← String.toList_inj]
  simp [Tree.dump, treeTerm, nodeTerm, payloadFields, numberTerm, Tree.ofValue, Tree.kind?, Tree.outline, Value.outline,
    Outline.kind?, Tree.stage?, Kind.name, Term.ofOption, Term.flat, Term.flatFields]

/-- Every number is read back from each of its three literals, which have as few significant digits as any and are
as near to it as any of those. Where two such literals are equally near, plain text and dumps show the larger and
exchange text the one with an even last digit; everywhere else the three show the same digits. -/
theorem renderings_read_back (x : Binary64) :
    ∃ dump : String,
      (Tree.ofValue (.number x)).branch.dump = "Node \x7b kind: Some(Number), number: " ++ dump ++ " \x7d" ∧
        Renderings x (encode (Tree.ofValue (.number x)).branch.display) (encode dump.toList)
          (encode (Tree.ofValue (.number x)).branch.exchange) := by
  have plain_eq : (Tree.ofValue (.number x)).branch.display = (x.shortest .up).render Dialect.plain.layout := by
    rw [Tree.display_ofValue, Dialect.write]
    rfl
  have exchange_eq :
      (Tree.ofValue (.number x)).branch.exchange = (x.shortest .even).render Dialect.exchange.layout := by
    rw [Tree.exchange_ofValue, Dialect.write]
    rfl
  have sixteen : ∀ tie, Separates tie 16 := fun tie =>
    separates_of_rank tie 16 0x4341C37937E08000 (by decide) (by cases tie <;> decide +kernel) (by decide +kernel)
  have minusFour : Separates .up (-4) :=
    separates_of_rank .up (-4) 0x3F1A36E2EB1C432D (by decide) (by decide +kernel) (by decide +kernel)
  have minusFive : Separates .even (-5) :=
    separates_of_rank .even (-5) 0x3EE4F8B588E368F1 (by decide) (by decide +kernel) (by decide +kernel)
  obtain ⟨d, plain⟩ := exists_shows Dialect.plain.layout .up x
  obtain ⟨e, dump⟩ := exists_shows dumpLayout .up x
  obtain ⟨f, exchange⟩ := exists_shows Dialect.exchange.layout .even x
  refine ⟨_, dump_number x, ?_⟩
  rw [String.toList_ofList, plain_eq, exchange_eq]
  constructor
  case reads_plain => exact plain.reads
  case reads_dump => exact dump.reads
  case reads_exchange => exact exchange.reads
  case plain_exponent => exact fun b mem => Decimal.mem_render_of_positional rfl mem
  case dump_exponent => exact lowerE_mem_iff rfl (by decide) minusFour (sixteen .up)
  case exchange_exponent => exact lowerE_mem_iff rfl (by decide) minusFive (sixteen .even)
  case dump_digits => exact Decimal.significant_eq dump.numeral plain.numeral (dump.same.trans plain.same.symm)
  case exchange_digits => exact significant_eq_of_not_halfway plain exchange
  case plain_halfway => exact fun low high => high_of_halfway plain
  case dump_halfway => exact fun low high => high_of_halfway dump
  case exchange_halfway => exact fun low high => even_of_halfway exchange

/-- The number -1212159275702734.25 is halfway between two decimals of 17 digits: plain text and dumps show
the larger magnitude, exchange text the one with an even last digit. -/
theorem significant_digits_differ :
    ∃ x : Binary64, x.bits = 0xC31139CF4C286739 ∧
      significant (encode (Tree.ofValue (.number x)).branch.exchange) ≠
        significant (encode (Tree.ofValue (.number x)).branch.display) :=
  ⟨⟨true, 0x431139CF4C286739, by decide⟩, by decide +kernel, by decide +kernel⟩

end JsonStream.Text
