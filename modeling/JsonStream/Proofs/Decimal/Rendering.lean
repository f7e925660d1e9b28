import JsonStream.Decimal.Layout
import JsonStream.Proofs.Binary64.Nearest
import JsonStream.Proofs.Decimal.Reading
import JsonStream.Proofs.Utf8.Encoding

/-!
# Rendered decimals are numerals

In every layout a decimal is written as a numeral. Where the point moves, or zeros fill up the digits before
it, the numeral stands for another significand with another exponent, so what is kept is the sign and the
magnitude, and these are all that rounding looks at.

- `encode_digits` — digits as bytes
- `sets_pointed`, `sets_scientific` — the ways to set the point
- `exponent_scientific` — the exponent
- `writes_render` — the whole numeral
- `lowerE_mem_render_iff` — which numerals have an exponent
-/

namespace JsonStream.Decimal

open Utf8 (encode)

variable {l : List Char} {d d' : Decimal} {x : Binary64}

/-! ## Digits -/

def DigitChars (l : List Char) : Prop :=
  ∀ c ∈ l, c.isDigit = true

theorem digitChars_toDigits (n : Nat) : DigitChars (Nat.toDigits 10 n) := fun _ mem =>
  Nat.isDigit_of_mem_toDigits (by decide) (by decide) mem

theorem digitChars_zeros (n : Nat) : DigitChars (List.replicate n '0') := by
  intro c mem
  rw [List.eq_of_mem_replicate mem]
  rfl

theorem DigitChars.append {k : List Char} (left : DigitChars l) (right : DigitChars k) :
    DigitChars (l ++ k) := by
  intro c mem
  rcases List.mem_append.1 mem with first | second
  · exact left c first
  · exact right c second

theorem DigitChars.toNat_mem (digits : DigitChars l) {c : Char} (mem : c ∈ l) :
    48 ≤ c.toNat ∧ c.toNat ≤ 57 :=
  Char.isDigit_iff_toNat.1 (digits c mem)

theorem toNat_byte {n : Nat} (small : n < 0x80) : (UInt8.ofNat n).toNat = n := by
  rw [UInt8.toNat_ofNat', Nat.mod_eq_of_lt (by omega)]

/-- Digits are encoded by one byte each. -/
theorem encode_digits (digits : DigitChars l) : encode l = l.map fun c => UInt8.ofNat c.toNat := by
  induction l with
  | nil =>
      rfl
  | cons c rest ih =>
      have bounds := digits.toNat_mem List.mem_cons_self
      have others : DigitChars rest := fun d mem => digits d (List.mem_cons_of_mem c mem)
      rw [Utf8.encode_cons, Utf8.encodeChar_of_lt (by omega), ih others, List.map_cons,
        List.singleton_append]

theorem isDigit_byte {c : Char} (digit : c.isDigit = true) :
    Byte.isDigit (UInt8.ofNat c.toNat) = true := by
  rcases Char.isDigit_iff_toNat.1 digit with ⟨low, high⟩
  have bound : c.toNat ≤ 57 := high
  rw [Byte.isDigit, Bool.and_eq_true, decide_eq_true_iff, decide_eq_true_iff, UInt8.le_iff_toNat_le,
    UInt8.le_iff_toNat_le, toNat_byte (by omega)]
  exact ⟨low, high⟩

theorem digits_encode (digits : DigitChars l) : Digits (encode l) := by
  intro b mem
  rw [encode_digits digits] at mem
  rcases List.mem_map.1 mem with ⟨c, isChar, rfl⟩
  exact isDigit_byte (digits c isChar)

/-- The bytes spell the same number as the characters. -/
theorem ofDigits_encode (digits : DigitChars l) : ofDigits (encode l) = Nat.ofDigitChars 10 l 0 := by
  rw [encode_digits digits, ofDigits, List.foldl_map, Nat.ofDigitChars_eq_foldl]
  -- Both are folds over the row; they agree digit by digit.
  apply List.foldl_ext
  intro n c mem
  have bounds := digits.toNat_mem mem
  rw [Byte.digitValue, toNat_byte (by omega)]
  rfl

theorem length_encode (digits : DigitChars l) : (encode l).length = l.length := by
  rw [encode_digits digits, List.length_map]

/-! ## The point -/

theorem mantissa_whole (digits : DigitChars l) (nonempty : l ≠ []) :
    Mantissa (encode l) (Nat.ofDigitChars 10 l 0) 0 := by
  rw [← ofDigits_encode digits]
  refine .whole (digits_encode digits) fun empty => nonempty ?_
  rw [← List.length_eq_zero_iff, ← length_encode digits, empty, List.length_nil]

/-- Digits with a point after some of them are a mantissa with as many places as follow it. -/
theorem mantissa_point {whole fraction : List Char} (digits : DigitChars (whole ++ fraction))
    (nonempty : whole ≠ []) :
    Mantissa (encode (whole ++ '.' :: fraction)) (Nat.ofDigitChars 10 (whole ++ fraction) 0)
      fraction.length := by
  have wholeDigits : DigitChars whole := fun c mem => digits c (List.mem_append_left _ mem)
  have fractionDigits : DigitChars fraction := fun c mem => digits c (List.mem_append_right _ mem)
  have point : String.utf8EncodeChar '.' = [Byte.point] := by
    rfl
  rw [← ofDigits_encode digits, ← length_encode fractionDigits, Utf8.encode_append, Utf8.encode_cons,
    Utf8.encode_append, point, List.singleton_append]
  refine .pointed ?_ fun empty => nonempty ?_
  · rw [← Utf8.encode_append]
    exact digits_encode digits
  · rw [← List.length_eq_zero_iff, ← length_encode wholeDigits, (List.append_eq_nil_iff.1 empty).1,
      List.length_nil]

/-- A text spells a digit row scaled by a power of ten, and begins with a digit. -/
structure Sets (s l : List Char) (e : Int) : Prop where
  mantissa : ∃ n places, Mantissa (encode s) n places ∧
    (n * 10 ^ (0 - places : Int) : ℚ) = Nat.ofDigitChars 10 l 0 * 10 ^ e
  first : ∃ c rest, s = c :: rest ∧ c.isDigit = true

/-- Zeros before the digits and after the point. -/
theorem sets_leading (digits : DigitChars l) (zeros : Nat) :
    Sets ('0' :: '.' :: List.replicate zeros '0' ++ l) l (-(zeros + l.length)) := by
  have all : DigitChars (['0'] ++ (List.replicate zeros '0' ++ l)) :=
    (digitChars_zeros 1).append ((digitChars_zeros zeros).append digits)
  -- Leading zeros do not change the number, and each is one more place after the point.
  have value : Nat.ofDigitChars 10 (['0'] ++ (List.replicate zeros '0' ++ l)) 0 =
      Nat.ofDigitChars 10 l 0 := by
    rw [Nat.ofDigitChars_append, Nat.ofDigitChars_append, Nat.ofDigitChars_replicate_zero]
    rfl
  have places : (0 - (List.replicate zeros '0' ++ l).length : Int) = -(zeros + l.length) := by
    rw [List.length_append, List.length_replicate]
    omega
  refine ⟨⟨_, _, mantissa_point all (by simp), ?_⟩, '0', _, rfl, rfl⟩
  rw [value, places]

/-- Zeros after the digits, and no point. -/
theorem sets_trailing (digits : DigitChars l) (nonempty : l ≠ []) (zeros : Nat) :
    Sets (l ++ List.replicate zeros '0') l zeros := by
  -- Trailing zeros are the power of ten.
  have value : Nat.ofDigitChars 10 (l ++ List.replicate zeros '0') 0 =
      10 ^ zeros * Nat.ofDigitChars 10 l 0 := by
    rw [Nat.ofDigitChars_append, Nat.ofDigitChars_replicate_zero]
  have mantissa := mantissa_whole (digits.append (digitChars_zeros zeros)) (by simp [nonempty])
  rcases List.exists_cons_of_ne_nil nonempty with ⟨c, rest, rfl⟩
  refine ⟨⟨_, _, mantissa, ?_⟩, c, _, rfl, digits c List.mem_cons_self⟩
  rw [value, Nat.cast_zero, sub_zero, zpow_zero, mul_one, zpow_natCast, Nat.cast_mul, Nat.cast_pow,
    mul_comm, Nat.cast_ofNat]

/-- The same with a point and one more zero. -/
theorem sets_pointZero (digits : DigitChars l) (nonempty : l ≠ []) (zeros : Nat) :
    Sets (l ++ List.replicate zeros '0' ++ ['.', '0']) l zeros := by
  have all : DigitChars (l ++ List.replicate zeros '0' ++ ['0']) :=
    (digits.append (digitChars_zeros zeros)).append (digitChars_zeros 1)
  have value : Nat.ofDigitChars 10 (l ++ List.replicate zeros '0' ++ ['0']) 0 =
      10 ^ zeros * Nat.ofDigitChars 10 l 0 * 10 := by
    have last : ['0'] = List.replicate 1 '0' := by rfl
    rw [last, Nat.ofDigitChars_append, Nat.ofDigitChars_append, Nat.ofDigitChars_replicate_zero,
      Nat.ofDigitChars_replicate_zero, Nat.pow_one, Nat.mul_comm]
  have mantissa := mantissa_point all (by simp [nonempty])
  rcases List.exists_cons_of_ne_nil nonempty with ⟨c, rest, rfl⟩
  refine ⟨⟨_, _, mantissa, ?_⟩, c, _, rfl, digits c List.mem_cons_self⟩
  have one : (0 - ((['0'] : List Char).length : Int)) = -1 := by rfl
  rw [value, one, zpow_neg_one, Nat.cast_mul, Nat.cast_ofNat, mul_inv_cancel_right₀ (by norm_num),
    zpow_natCast, Nat.cast_mul, Nat.cast_pow, mul_comm, Nat.cast_ofNat]

/-- The point among the digits. -/
theorem sets_split {whole fraction : List Char} (digits : DigitChars (whole ++ fraction))
    (nonempty : whole ≠ []) : Sets (whole ++ '.' :: fraction) (whole ++ fraction) (-fraction.length) := by
  have mantissa := mantissa_point digits nonempty
  rcases List.exists_cons_of_ne_nil nonempty with ⟨c, rest, rfl⟩
  refine ⟨⟨_, _, mantissa, ?_⟩, c, _, rfl, digits c List.mem_cons_self⟩
  rw [zero_sub]

/-- The point goes where the exponent says. -/
theorem sets_pointed (pointZero : Bool) (digits : DigitChars l) (nonempty : l ≠ []) (e : Int) :
    Sets (pointed pointZero l (l.length + e)) l e := by
  have length_pos : 0 < l.length := List.length_pos_iff.2 nonempty
  rw [pointed]
  -- Zeros before the digits, zeros after them, or the point in their midst.
  by_cases small : (l.length : Int) + e ≤ 0
  · obtain ⟨zeros, zeros_eq⟩ : ∃ zeros : Nat, -(l.length + e) = zeros := Int.eq_ofNat_of_zero_le (by omega)
    obtain rfl : e = -(zeros + l.length) := by omega
    rw [if_pos small, zeros_eq, Int.toNat_natCast]
    exact sets_leading digits zeros
  · obtain ⟨whole, whole_eq⟩ : ∃ whole : Nat, l.length + e = whole := Int.eq_ofNat_of_zero_le (by omega)
    rw [if_neg small, whole_eq, Int.toNat_natCast]
    by_cases long : l.length ≤ whole
    · obtain ⟨zeros, rfl⟩ : ∃ zeros, whole = l.length + zeros := ⟨whole - l.length, by omega⟩
      obtain rfl : e = zeros := by omega
      rw [if_pos long, Nat.add_sub_cancel_left]
      cases pointZero with
      | true =>
          exact sets_pointZero digits nonempty zeros
      | false =>
          rw [if_neg Bool.false_ne_true, List.append_nil]
          exact sets_trailing digits nonempty zeros
    · have both : l.take whole ++ l.drop whole = l := List.take_append_drop whole l
      have places : e = -(l.drop whole).length := by
        rw [List.length_drop]
        omega
      have some : l.take whole ≠ [] := by
        rw [ne_eq, List.take_eq_nil_iff]
        rintro (rfl | empty)
        · exact small (le_of_eq whole_eq)
        · exact nonempty empty
      have split := sets_split (both.symm ▸ digits) some
      rw [if_neg long, places]
      rwa [both] at split

/-- The point after the first digit, if there are others. -/
theorem sets_scientific (digits : DigitChars l) (nonempty : l ≠ []) :
    Sets (l.take 1 ++ if l.length ≤ 1 then [] else '.' :: l.drop 1) l (1 - l.length) := by
  have both : l.take 1 ++ l.drop 1 = l := List.take_append_drop 1 l
  have length_pos : 0 < l.length := List.length_pos_iff.2 nonempty
  by_cases short : l.length ≤ 1
  · obtain one : l.length = 1 := by omega
    have trailing := sets_trailing digits nonempty 0
    rw [if_pos short, List.append_nil, List.take_of_length_le short, one]
    rwa [List.replicate_zero, List.append_nil] at trailing
  · have places : (1 - l.length : Int) = -(l.drop 1).length := by
      rw [List.length_drop]
      omega
    have some : l.take 1 ≠ [] := by simp [nonempty]
    have split := sets_split (both.symm ▸ digits) some
    rw [if_neg short, places]
    rwa [both] at split

/-! ## The exponent -/

/-- An exponent has a sign if it is negative, and otherwise if the layout says so. -/
theorem exponent_scientific (plusSign : Bool) (place : Int) :
    Exponent (encode ('e' :: (if place < 0 then ['-'] else if plusSign then ['+'] else [])
      ++ Nat.toDigits 10 place.natAbs)) place := by
  have digits : ∀ n, Digits (encode (Nat.toDigits 10 n)) := fun n => digits_encode (digitChars_toDigits n)
  have nonempty : ∀ n, encode (Nat.toDigits 10 n) ≠ [] := by
    intro n empty
    have length := length_encode (digitChars_toDigits n)
    rw [empty, List.length_nil] at length
    exact Nat.toDigits_ne_nil (List.length_eq_zero_iff.1 length.symm)
  have value : ∀ n, ofDigits (encode (Nat.toDigits 10 n)) = n := by
    intro n
    rw [ofDigits_encode (digitChars_toDigits n), Nat.ofDigitChars_ten_toDigits]
  have mark : Byte.lowerE = Byte.lowerE ∨ Byte.lowerE = Byte.upperE := .inl rfl
  by_cases negative : place < 0
  · obtain ⟨n, rfl⟩ : ∃ n : Nat, place = -n := ⟨place.natAbs, by omega⟩
    have written := Exponent.minus mark (digits n) (nonempty n)
    rw [value] at written
    rw [if_pos negative, Int.natAbs_neg, Int.natAbs_natCast]
    exact written
  · obtain ⟨n, rfl⟩ : ∃ n : Nat, place = n := ⟨place.natAbs, by omega⟩
    rw [if_neg negative, Int.natAbs_natCast]
    cases plusSign with
    | true =>
        have written := Exponent.plus mark (digits n) (nonempty n)
        rw [value] at written
        exact written
    | false =>
        have written := Exponent.unsigned mark (digits n) (nonempty n)
        rw [value] at written
        exact written

/-! ## Numerals -/

/-- Rounding looks at the sign and the magnitude only. -/
theorem RoundsTo.of_eq (rounds : d.RoundsTo x) (sign : d'.negative = d.negative)
    (magnitude : d'.magnitude = d.magnitude) : d'.RoundsTo x := by
  refine ⟨rounds.sign.trans sign.symm, ?_⟩
  rw [magnitude]
  exact rounds.nearest

/-- A text that spells a decimal up to where its point is. -/
structure Writes (text : Bytes) (d : Decimal) : Prop where
  numeral : ∃ d', Numeral text d' ∧ d'.negative = d.negative ∧ d'.magnitude = d.magnitude
  starts : ∃ b rest, text = b :: rest ∧ Byte.startsNumber b = true

/-- A sign, the digits with a point, and what is left of the exponent. -/
theorem writes_of_sets {s t : List Char} {e place : Int} (sets : Sets s (Nat.toDigits 10 d.significand) e)
    (exponent : Exponent (encode t) place) (sum : d.exponent = e + place) :
    Writes (encode ((if d.negative then ['-'] else []) ++ (s ++ t))) d := by
  rcases sets with ⟨⟨n, places, mantissa, value⟩, c, rest, text, digit⟩
  rw [Nat.ofDigitChars_ten_toDigits, zero_sub] at value
  have sign_eq : encode (if d.negative then ['-'] else []) = sign d.negative := by
    cases d.negative <;> rfl
  rw [Utf8.encode_append, Utf8.encode_append, sign_eq, ← List.append_assoc]
  constructor
  · refine ⟨_, .intro d.negative mantissa exponent, rfl, ?_⟩
    have ten : (10 : ℚ) ≠ 0 := by norm_num
    rw [magnitude, magnitude, sum, sub_eq_neg_add, zpow_add₀ ten, zpow_add₀ ten, ← mul_assoc, value,
      mul_assoc]
  · cases d.negative with
    | true =>
        exact ⟨_, _, rfl, rfl⟩
    | false =>
        have bound : c.toNat ≤ 57 := (Char.isDigit_iff_toNat.1 digit).2
        rw [text, Utf8.encode_cons, Utf8.encodeChar_of_lt (by omega)]
        exact ⟨_, _, rfl, by rw [Byte.startsNumber, isDigit_byte digit, Bool.or_true]⟩

def leadingPlace (d : Decimal) : Int :=
  (Nat.toDigits 10 d.significand).length + d.exponent - 1

/-- A numeral without exponent: its sign, and its digits with the point where it belongs. -/
theorem render_of_positional {layout : Layout} (positional : layout.isPositional d.leadingPlace = true) :
    d.render layout = (if d.negative then ['-'] else []) ++
      pointed layout.pointZero (Nat.toDigits 10 d.significand)
        ((Nat.toDigits 10 d.significand).length + d.exponent) := by
  unfold render
  dsimp only
  rw [leadingPlace] at positional
  rw [if_pos positional]

/-- A numeral with an exponent: its sign, one digit, the others behind a point, and the exponent. -/
theorem render_of_not_positional {layout : Layout}
    (notPositional : layout.isPositional d.leadingPlace = false) :
    d.render layout = (if d.negative then ['-'] else []) ++
      scientific layout.plusSign (Nat.toDigits 10 d.significand) d.leadingPlace := by
  unfold render
  dsimp only
  rw [leadingPlace] at notPositional ⊢
  rw [notPositional, if_neg Bool.false_ne_true]

/-- In every layout a decimal is a numeral of the same sign and magnitude. -/
theorem writes_render (layout : Layout) (d : Decimal) : Writes (encode (d.render layout)) d := by
  have digits := digitChars_toDigits d.significand
  cases positional : layout.isPositional d.leadingPlace with
  | true =>
      have nothing : Exponent (encode []) 0 := .absent
      have written := writes_of_sets (sets_pointed layout.pointZero digits Nat.toDigits_ne_nil d.exponent)
        nothing (Int.add_zero _).symm
      rw [render_of_positional positional]
      rwa [List.append_nil] at written
  | false =>
      rw [render_of_not_positional positional, scientific, List.append_assoc (_ ++ _)]
      refine writes_of_sets (sets_scientific digits Nat.toDigits_ne_nil)
        (exponent_scientific layout.plusSign _) ?_
      rw [leadingPlace]
      omega

/-- A numeral without exponent has a sign, digits and a point. -/
theorem mem_render_of_positional {layout : Layout} (positional : layout.isPositional d.leadingPlace = true)
    {b : UInt8} (mem : b ∈ encode (d.render layout)) :
    Byte.isDigit b = true ∨ b = Byte.point ∨ b = Byte.minus := by
  rcases sets_pointed layout.pointZero (digitChars_toDigits d.significand) Nat.toDigits_ne_nil d.exponent with
    ⟨⟨n, places, mantissa, -⟩, -⟩
  rw [render_of_positional positional, Utf8.encode_append, List.mem_append] at mem
  rcases mem with isSign | inside
  · cases negative : d.negative with
    | true =>
        rw [negative] at isSign
        exact .inr (.inr (List.mem_singleton.1 isSign))
    | false =>
        rw [negative] at isSign
        cases isSign
  · rcases mantissa.digit_or_point b inside with digit | point
    · exact .inl digit
    · exact .inr (.inl point)

/-- A numeral has an exponent exactly if its leading digit is out of the bounds of the layout. -/
theorem lowerE_mem_render_iff (layout : Layout) (d : Decimal) :
    Byte.lowerE ∈ encode (d.render layout) ↔ layout.isPositional d.leadingPlace = false := by
  cases positional : layout.isPositional d.leadingPlace with
  | true =>
      have other : ¬ (Byte.isDigit Byte.lowerE = true ∨ Byte.lowerE = Byte.point ∨ Byte.lowerE = Byte.minus) := by
        decide
      simp only [Bool.true_eq_false, iff_false]
      exact fun mem => other (mem_render_of_positional positional mem)
  | false =>
      rw [render_of_not_positional positional, scientific]
      simp only [Utf8.encode_append, List.mem_append, iff_true]
      refine .inr (.inl (.inr ?_))
      exact List.mem_cons_self

/-- The leading digit is the place of the magnitude between powers of ten. -/
theorem leadingPlace_lt_iff (nonzero : d.significand ≠ 0) (p : Int) :
    d.leadingPlace < p ↔ d.magnitude < 10 ^ p := by
  have ten : (0 : ℚ) < 10 := by norm_num
  have scale : (0 : ℚ) < 10 ^ d.exponent := zpow_pos ten _
  have length_pos : 0 < (Nat.toDigits 10 d.significand).length := Nat.length_toDigits_pos
  unfold leadingPlace magnitude
  rcases Int.lt_or_le d.exponent p with less | ge
  · obtain ⟨places, rfl⟩ : ∃ places : Nat, p = places + d.exponent := ⟨(p - d.exponent).toNat, by omega⟩
    have short := Nat.length_toDigits_le_iff (b := 10) (n := d.significand) (k := places) (by decide) (by omega)
    rw [zpow_add₀ ten.ne', zpow_natCast]
    constructor
    · intro place
      have bound : (d.significand : ℚ) < 10 ^ places := by exact_mod_cast short.1 (by omega)
      exact mul_lt_mul_of_pos_right bound scale
    · intro lt
      have bound : (d.significand : ℚ) < 10 ^ places := lt_of_mul_lt_mul_right lt scale.le
      have digits := short.2 (by exact_mod_cast bound)
      omega
  · constructor
    · intro place
      omega
    · intro lt
      have one : (1 : ℚ) ≤ d.significand := by exact_mod_cast Nat.one_le_iff_ne_zero.2 nonzero
      have power : (10 : ℚ) ^ p ≤ 10 ^ d.exponent := zpow_le_zpow_right₀ (by norm_num) ge
      have product : (10 : ℚ) ^ d.exponent ≤ d.significand * 10 ^ d.exponent := le_mul_of_one_le_left scale.le one
      exact absurd lt (not_lt.2 (power.trans product))

end JsonStream.Decimal
