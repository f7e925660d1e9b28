import JsonStream.Decimal.Nearest
import JsonStream.Decimal.Significant
import JsonStream.Proofs.Decimal.Reading
import Mathlib.Algebra.Order.Field.Rat
import Mathlib.Tactic.Linarith
import Mathlib.Tactic.Ring

/-!
# Significant digits and magnitudes

Numerals of one magnitude have the same significant digits, however they are laid out, because a row of digits
without zeros at its ends is determined by the number it spells up to a power of ten.

- `Trimmed.eq_of_scaled` — rows without zeros at the ends
- `Numeral.trimmed`, `Numeral.exists_zeros` — the significant digits of a numeral
- `significant_eq` — numerals of one magnitude
-/

namespace JsonStream.Decimal

variable {s t p q row text : Bytes} {d d' : Decimal} {b : UInt8} {n places : Nat} {e : Int}

/-! ## Digits -/

theorem digitValue_lt (digit : Byte.isDigit b = true) : Byte.digitValue b < 10 := by
  rw [Byte.isDigit, Bool.and_eq_true, decide_eq_true_iff, decide_eq_true_iff, UInt8.le_iff_toNat_le,
    UInt8.le_iff_toNat_le] at digit
  have high : b.toNat ≤ 57 := digit.2
  have zero : Byte.digitZero.toNat = 48 := by rfl
  rw [Byte.digitValue, zero]
  omega

/-- Digits are told apart by their values. -/
theorem digitValue_injective {c : UInt8} (digit : Byte.isDigit b = true) (other : Byte.isDigit c = true)
    (same : Byte.digitValue b = Byte.digitValue c) : b = c := by
  rw [Byte.isDigit, Bool.and_eq_true, decide_eq_true_iff, decide_eq_true_iff, UInt8.le_iff_toNat_le,
    UInt8.le_iff_toNat_le] at digit other
  have zero : Byte.digitZero.toNat = 48 := by rfl
  rw [Byte.digitValue, Byte.digitValue, zero] at same
  rw [zero] at digit other
  apply UInt8.toNat_inj.1
  omega

theorem digitValue_ne_zero (digit : Byte.isDigit b = true) (nonzero : b ≠ Byte.digitZero) :
    Byte.digitValue b ≠ 0 := by
  intro none
  exact nonzero (digitValue_injective digit (by decide) none)

theorem Digits.append_iff : Digits (s ++ t) ↔ Digits s ∧ Digits t :=
  List.forall_mem_append

theorem ofDigits_concat (s : Bytes) (b : UInt8) :
    ofDigits (s ++ [b]) = 10 * ofDigits s + Byte.digitValue b := by
  rw [ofDigits, List.foldl_append]
  rfl

theorem ofDigits_append (s t : Bytes) :
    ofDigits (s ++ t) = ofDigits s * 10 ^ t.length + ofDigits t := by
  induction t using List.reverseRecOn with
  | nil =>
      simp [ofDigits]
  | append_singleton t b ih =>
      rw [← List.append_assoc, ofDigits_concat, ofDigits_concat, ih, List.length_append,
        List.length_singleton, Nat.pow_succ]
      ring

/-- A row of digits is below the power of ten of its length. -/
theorem ofDigits_lt (digits : Digits s) : ofDigits s < 10 ^ s.length := by
  induction s using List.reverseRecOn with
  | nil =>
      simp [ofDigits]
  | append_singleton s b ih =>
      rcases Digits.append_iff.1 digits with ⟨before, last⟩
      have small := digitValue_lt (last b List.mem_cons_self)
      have bound := ih before
      rw [ofDigits_concat, List.length_append, List.length_singleton, Nat.pow_succ]
      omega

/-- Rows of one length are determined by the number they spell. -/
theorem ofDigits_injective (first : Digits s) (second : Digits t) (length : s.length = t.length)
    (same : ofDigits s = ofDigits t) : s = t := by
  induction s using List.reverseRecOn generalizing t with
  | nil =>
      exact (List.length_eq_zero_iff.1 length.symm).symm
  | append_singleton s b ih =>
      rcases List.eq_nil_or_concat' t with rfl | ⟨t, c, rfl⟩
      · simp at length
      · rcases Digits.append_iff.1 first with ⟨before, last⟩
        rcases Digits.append_iff.1 second with ⟨before', last'⟩
        have digit := last b List.mem_cons_self
        have digit' := last' c List.mem_cons_self
        have small := digitValue_lt digit
        have small' := digitValue_lt digit'
        rw [ofDigits_concat, ofDigits_concat] at same
        rw [List.length_append, List.length_append, List.length_singleton, List.length_singleton] at length
        rw [ih before before' (by omega) (by omega), digitValue_injective digit digit' (by omega)]

theorem ofDigits_zeros (zeros : ∀ b ∈ s, b = Byte.digitZero) : ofDigits s = 0 := by
  rw [List.eq_replicate_of_mem zeros]
  induction s.length with
  | zero =>
      rfl
  | succ n ih =>
      rw [List.replicate_succ', ofDigits_concat, ih]
      rfl

/-! ## Rows without zeros at the ends -/

structure Trimmed (p : Bytes) : Prop where
  digits : Digits p
  first : ∀ b ∈ p.head?, b ≠ Byte.digitZero
  last : ∀ b ∈ p.getLast?, b ≠ Byte.digitZero

/-- Without the zeros at both ends no zeros are left there. -/
theorem trimmed_trim (digits : Digits row) : Trimmed (trim row) where
  digits := by
    intro b mem
    have inner := (List.rdropWhile_prefix _ _).subset mem
    exact digits b ((List.dropWhile_suffix _).subset inner)
  first := by
    intro b head
    rcases List.rdropWhile_prefix (· == Byte.digitZero) (row.dropWhile (· == Byte.digitZero)) with ⟨zeros, split⟩
    have first : (row.dropWhile (· == Byte.digitZero)).head? = some b := by
      rw [← split]
      exact List.mem_head?_append_of_mem_head? head
    have stopped := List.head?_dropWhile_not (· == Byte.digitZero) row
    rw [first] at stopped
    simpa using stopped
  last := by
    intro b last
    rw [trim] at last
    have nonempty := List.ne_nil_of_mem (List.mem_of_getLast? last)
    have stopped := List.rdropWhile_last_not (· == Byte.digitZero) _ nonempty
    rw [List.getLast_of_getLast?_eq_some last] at stopped
    simpa using stopped

/-- Leading zeros do not count. -/
theorem ofDigits_dropWhile (row : Bytes) : ofDigits (row.dropWhile (· == Byte.digitZero)) = ofDigits row := by
  have leading : ofDigits (row.takeWhile (· == Byte.digitZero)) = 0 :=
    ofDigits_zeros fun b mem => by simpa using List.mem_takeWhile_imp mem
  have split := List.takeWhile_append_dropWhile (p := (· == Byte.digitZero)) (l := row)
  rw [← congrArg ofDigits split, ofDigits_append, leading, Nat.zero_mul, Nat.zero_add]

/-- Each trailing zero is a power of ten. -/
theorem exists_zeros_rdropWhile (row : Bytes) :
    ∃ zeros, ofDigits row = ofDigits (row.rdropWhile (· == Byte.digitZero)) * 10 ^ zeros := by
  have trailing : ofDigits (row.rtakeWhile (· == Byte.digitZero)) = 0 :=
    ofDigits_zeros fun b mem => by simpa using List.mem_rtakeWhile_imp mem
  have split := List.rdropWhile_append_rtakeWhile (p := (· == Byte.digitZero)) (l := row)
  refine ⟨(row.rtakeWhile (· == Byte.digitZero)).length, ?_⟩
  rw [← congrArg ofDigits split, ofDigits_append, trailing, Nat.add_zero]

/-- The zeros at the end of a row are a power of ten, and those before it are nothing. -/
theorem exists_zeros_trim (row : Bytes) : ∃ zeros, ofDigits row = ofDigits (trim row) * 10 ^ zeros := by
  have split := exists_zeros_rdropWhile (row.dropWhile (· == Byte.digitZero))
  rwa [ofDigits_dropWhile] at split

namespace Trimmed

/-- The first digit is not zero, so the row is at least its place value. -/
theorem pow_le (trimmed : Trimmed p) (nonempty : p ≠ []) : 10 ^ (p.length - 1) ≤ ofDigits p := by
  rcases List.exists_cons_of_ne_nil nonempty with ⟨b, rest, rfl⟩
  have digit := trimmed.digits b List.mem_cons_self
  have nonzero := digitValue_ne_zero digit (trimmed.first b rfl)
  have lead : ofDigits [b] = Byte.digitValue b := Nat.zero_add _
  rw [← List.singleton_append, ofDigits_append, lead, List.length_append, List.length_singleton,
    Nat.add_sub_cancel_left]
  exact Nat.le_add_right_of_le (Nat.le_mul_of_pos_left _ (Nat.pos_of_ne_zero nonzero))

theorem eq_nil_of_dvd (trimmed : Trimmed p) (dvd : 10 ∣ ofDigits p) : p = [] := by
  rcases List.eq_nil_or_concat' p with none | ⟨s, b, rfl⟩
  · exact none
  · rcases Digits.append_iff.1 trimmed.digits with ⟨before, last⟩
    have digit := last b List.mem_cons_self
    have nonzero := digitValue_ne_zero digit (trimmed.last b (by simp))
    have small := digitValue_lt digit
    rw [ofDigits_concat] at dvd
    omega

theorem eq_nil_of_zeros (trimmed : Trimmed p) {k zeros : Nat} (whole : ofDigits p = k * 10 ^ (zeros + 1)) :
    p = [] := by
  apply trimmed.eq_nil_of_dvd
  rw [whole, Nat.pow_succ, ← Nat.mul_assoc]
  exact Nat.dvd_mul_left 10 _

/-- A number that is a row without zeros at the ends, up to a power of ten, is that row with zeros behind. -/
theorem exists_zeros (trimmed : Trimmed p) {k : Nat} {e f : Int}
    (same : (ofDigits p * 10 ^ e : ℚ) = k * 10 ^ f) : ∃ zeros, k = ofDigits p * 10 ^ zeros := by
  have ten : (10 : ℚ) ≠ 0 := by norm_num
  rcases Int.le_total f e with le | ge
  · obtain ⟨zeros, rfl⟩ := Int.exists_add_of_le le
    rw [Int.add_comm, zpow_add₀ ten, ← mul_assoc, zpow_natCast] at same
    refine ⟨zeros, ?_⟩
    exact_mod_cast (mul_right_cancel₀ (zpow_ne_zero f ten) same).symm
  · obtain ⟨zeros, rfl⟩ := Int.exists_add_of_le ge
    rw [Int.add_comm, zpow_add₀ ten, ← mul_assoc, zpow_natCast] at same
    have whole : ofDigits p = k * 10 ^ zeros := by
      exact_mod_cast mul_right_cancel₀ (zpow_ne_zero e ten) same
    cases zeros with
    | zero =>
        exact ⟨0, by rw [whole, Nat.pow_zero, Nat.mul_one, Nat.mul_one]⟩
    | succ zeros =>
        have none := trimmed.eq_nil_of_zeros whole
        have zero : k = 0 := by
          rw [none] at whole
          simpa [ofDigits] using whole.symm
        exact ⟨0, by rw [none, zero]; rfl⟩

/-- A row without zeros at the ends is no longer than the number that it spells with zeros behind. -/
theorem length_le (trimmed : Trimmed p) {k zeros length : Nat} (whole : k = ofDigits p * 10 ^ zeros)
    (short : k < 10 ^ length) : p.length ≤ length := by
  rcases List.eq_nil_or_concat' p with rfl | ⟨s, b, rfl⟩
  · exact Nat.zero_le length
  · have least := trimmed.pow_le (by simp)
    have grows : ofDigits (s ++ [b]) ≤ k := by
      rw [whole]
      exact Nat.le_mul_of_pos_right _ (Nat.pow_pos (by decide))
    have less := (Nat.pow_lt_pow_iff_right (by decide)).1 ((least.trans grows).trans_lt short)
    omega

/-- Up to powers of ten a number is one row without zeros at the ends. -/
theorem eq_of_scaled (first : Trimmed p) (second : Trimmed q) {e f : Int}
    (same : (ofDigits p * 10 ^ e : ℚ) = ofDigits q * 10 ^ f) : p = q := by
  rcases first.exists_zeros same with ⟨zeros, whole⟩
  cases zeros with
  | zero =>
      rw [Nat.pow_zero, Nat.mul_one] at whole
      have le : p.length ≤ q.length := first.length_le (by rw [whole, Nat.pow_zero, Nat.mul_one])
        (ofDigits_lt second.digits)
      have ge : q.length ≤ p.length := second.length_le (by rw [whole, Nat.pow_zero, Nat.mul_one])
        (ofDigits_lt first.digits)
      exact ofDigits_injective first.digits second.digits (Nat.le_antisymm le ge) whole.symm
  | succ zeros =>
      have none := second.eq_nil_of_zeros whole
      have zero : ofDigits p = 0 := by
        rw [none] at whole
        have product : ofDigits p * 10 ^ (zeros + 1) = 0 := whole.symm
        exact (Nat.mul_eq_zero.1 product).resolve_right (Nat.pow_pos (by decide)).ne'
      rw [none]
      exact first.eq_nil_of_dvd (by rw [zero]; exact Nat.dvd_zero 10)

end Trimmed

/-! ## Numerals -/

/-- The cut before the exponent is where the mantissa ends. -/
theorem Mantissa.takeWhile_eq (mantissa : Mantissa s n places) (exponent : Exponent t e) (negative : Bool) :
    (sign negative ++ s ++ t).takeWhile (fun b => b != Byte.lowerE && b != Byte.upperE) =
      sign negative ++ s := by
  have before : ∀ b ∈ sign negative ++ s, (b != Byte.lowerE && b != Byte.upperE) = true := by
    intro b mem
    rcases List.mem_append.1 mem with isSign | inside
    · cases negative with
      | true =>
          obtain rfl := List.mem_singleton.1 isSign
          decide
      | false =>
          cases isSign
    · by_contra isMark
      rw [Bool.and_eq_true, bne_iff_ne, bne_iff_ne, ← not_or, not_not] at isMark
      rcases mantissa.digit_or_point b inside with digit | point
      · rw [Byte.not_isDigit_of_isMark isMark] at digit
        cases digit
      · exact Byte.ne_point_of_isMark isMark point
  have after : t.takeWhile (fun b => b != Byte.lowerE && b != Byte.upperE) = [] := by
    cases exponent with
    | absent =>
        rfl
    | unsigned isMark digits nonempty =>
        rcases isMark with rfl | rfl <;> rfl
    | plus isMark digits nonempty =>
        rcases isMark with rfl | rfl <;> rfl
    | minus isMark digits nonempty =>
        rcases isMark with rfl | rfl <;> rfl
  rw [List.takeWhile_append_of_pos before, after, List.append_nil]

/-- The digits of a mantissa spell its number. -/
theorem Mantissa.figures_spec (mantissa : Mantissa s n places) (exponent : Exponent t e) (negative : Bool) :
    Digits (figures (sign negative ++ s ++ t)) ∧ ofDigits (figures (sign negative ++ s ++ t)) = n := by
  have noSign : (sign negative).filter Byte.isDigit = [] := by
    cases negative <;> rfl
  rw [figures, mantissa.takeWhile_eq exponent, List.filter_append, noSign, List.nil_append]
  refine ⟨fun b mem => (List.mem_filter.1 mem).2, ?_⟩
  cases mantissa with
  | whole digits nonempty =>
      rw [List.filter_eq_self.2 digits]
  | pointed digits nonempty =>
      rcases Digits.append_iff.1 digits with ⟨whole, fraction⟩
      have point : Byte.isDigit Byte.point ≠ true := by decide
      rw [List.filter_append, List.filter_cons_of_neg point, List.filter_eq_self.2 whole,
        List.filter_eq_self.2 fraction]

theorem Numeral.trimmed (numeral : Numeral text d) : Trimmed (significant text) := by
  cases numeral with
  | intro negative mantissa exponent =>
      exact trimmed_trim (mantissa.figures_spec exponent negative).1

/-- The significand of a numeral is its significant digits up to zeros on the right. -/
theorem Numeral.exists_zeros (numeral : Numeral text d) :
    ∃ zeros, d.significand = ofDigits (significant text) * 10 ^ zeros := by
  cases numeral with
  | @intro negative s t n places e mantissa exponent =>
      rcases exists_zeros_trim (figures (sign negative ++ s ++ t)) with ⟨zeros, whole⟩
      rw [(mantissa.figures_spec exponent negative).2] at whole
      exact ⟨zeros, whole⟩

/-- The significant digits with the place of the last one are the magnitude. -/
theorem Numeral.magnitude_eq (numeral : Numeral text d) :
    ∃ e : Int, d.magnitude = ofDigits (significant text) * 10 ^ e := by
  rcases numeral.exists_zeros with ⟨zeros, whole⟩
  refine ⟨zeros + d.exponent, ?_⟩
  rw [magnitude, whole, zpow_add₀ (by norm_num), Nat.cast_mul, Nat.cast_pow, mul_assoc, zpow_natCast,
    Nat.cast_ofNat]

/-- Numerals of one magnitude have the same significant digits. -/
theorem significant_eq (first : Numeral s d) (second : Numeral t d') (same : d.magnitude = d'.magnitude) :
    significant s = significant t := by
  rcases first.magnitude_eq with ⟨e, left⟩
  rcases second.magnitude_eq with ⟨f, right⟩
  exact first.trimmed.eq_of_scaled second.trimmed (left.symm.trans (same.trans right))

end JsonStream.Decimal
