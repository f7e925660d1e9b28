import JsonStream.Decimal.Spelling

/-!
# Reading numerals

`Decimal.read?` goes through a text from left to right and cuts it where the digits end, while
`Decimal.Numeral` puts a numeral together from its parts. Main statement: the reader accepts exactly the
numerals, and gives for each the decimal that it spells.

- `splitDigits_append` — digits end before the first byte that is none
- `exponent?_eq_some_iff`, `unsigned?_eq_some_iff` — the two parts behind the sign
- `read?_eq_some_iff` — whole numerals
-/

namespace JsonStream

namespace Byte

theorem not_isDigit_of_isMark {mark : UInt8} (isMark : mark = lowerE ∨ mark = upperE) :
    isDigit mark = false := by
  rcases isMark with rfl | rfl
  · decide
  · decide

theorem ne_point_of_isMark {mark : UInt8} (isMark : mark = lowerE ∨ mark = upperE) :
    mark ≠ point := by
  rcases isMark with rfl | rfl
  · decide
  · decide

end Byte

namespace Decimal

variable {s t text : Bytes} {n places : Nat} {e : Int} {d : Decimal}

/-! ## Rows of digits -/

def EndsDigits (t : Bytes) : Prop :=
  ∀ b ∈ t.head?, Byte.isDigit b = false

/-- A row of digits is split off as a whole where no digit follows it. -/
theorem splitDigits_append (digits : Digits s) (ends : EndsDigits t) :
    splitDigits (s ++ t) = (s, t) := by
  unfold splitDigits
  rw [List.takeWhile_append_of_pos digits, List.dropWhile_append_of_pos digits]
  cases t with
  | nil =>
      simp
  | cons b rest =>
      have notDigit : Byte.isDigit b = false := ends b (by simp)
      simp [notDigit]

/-- What `splitDigits` takes off a text is a row of digits, and nothing of the text is lost. -/
theorem splitDigits_spec (text : Bytes) :
    Digits (splitDigits text).1 ∧ (splitDigits text).1 ++ (splitDigits text).2 = text := by
  unfold splitDigits
  refine ⟨?_, by simp⟩
  intro b mem
  have all := List.all_takeWhile (l := text) (p := Byte.isDigit)
  exact List.all_eq_true.1 all b mem

/-- An integer without sign is read exactly from a nonempty row of digits. -/
theorem natural?_eq_some_iff :
    natural? s = some n ↔ Digits s ∧ s ≠ [] ∧ n = ofDigits s := by
  unfold natural? Digits
  by_cases empty : s = []
  · simp [empty]
  · have notEmpty : s.isEmpty = false := by
      simpa using empty
    rw [← List.all_eq_true]
    cases all : s.all Byte.isDigit with
    | true =>
        simp [notEmpty, empty, eq_comm]
    | false =>
        simp

/-! ## Exponents -/

/-- An integer is read exactly from digits with at most one sign before them. -/
theorem integer?_eq_some_iff :
    integer? s = some e ↔
      (Digits s ∧ s ≠ [] ∧ e = ofDigits s) ∨
      (∃ t, s = Byte.plus :: t ∧ Digits t ∧ t ≠ [] ∧ e = ofDigits t) ∨
      (∃ t, s = Byte.minus :: t ∧ Digits t ∧ t ≠ [] ∧ e = -(ofDigits t : Int)) := by
  cases s with
  | nil =>
      simp [integer?]
  | cons b rest =>
      unfold integer?
      -- A sign is no digit, so the three spellings exclude each other by their first byte.
      by_cases minus : b = Byte.minus
      · subst minus
        have notDigits : ¬ Digits (Byte.minus :: rest) := by
          intro digits
          exact absurd (digits Byte.minus (by simp)) (by decide)
        simp only [if_true, Option.map_eq_some_iff, natural?_eq_some_iff]
        constructor
        · rintro ⟨n, ⟨digits, nonempty, rfl⟩, rfl⟩
          exact .inr (.inr ⟨rest, rfl, digits, nonempty, rfl⟩)
        · rintro (⟨digits, -, -⟩ | ⟨t, same, -⟩ | ⟨t, same, digits, nonempty, rfl⟩)
          · exact absurd digits notDigits
          · exact absurd (List.cons.inj same).1 (by decide)
          · cases same
            exact ⟨_, ⟨digits, nonempty, rfl⟩, rfl⟩
      · by_cases plus : b = Byte.plus
        · subst plus
          have notDigits : ¬ Digits (Byte.plus :: rest) := by
            intro digits
            exact absurd (digits Byte.plus (by simp)) (by decide)
          simp only [if_neg minus, if_true, Option.map_eq_some_iff, natural?_eq_some_iff]
          constructor
          · rintro ⟨n, ⟨digits, nonempty, rfl⟩, rfl⟩
            exact .inr (.inl ⟨rest, rfl, digits, nonempty, rfl⟩)
          · rintro (⟨digits, -, -⟩ | ⟨t, same, digits, nonempty, rfl⟩ | ⟨t, same, -⟩)
            · exact absurd digits notDigits
            · cases same
              exact ⟨_, ⟨digits, nonempty, rfl⟩, rfl⟩
            · exact absurd (List.cons.inj same).1 minus
        · simp only [if_neg minus, if_neg plus, Option.map_eq_some_iff, natural?_eq_some_iff]
          constructor
          · rintro ⟨n, ⟨digits, nonempty, rfl⟩, rfl⟩
            exact .inl ⟨digits, nonempty, rfl⟩
          · rintro (⟨digits, nonempty, rfl⟩ | ⟨t, same, -⟩ | ⟨t, same, -⟩)
            · exact ⟨_, ⟨digits, nonempty, rfl⟩, rfl⟩
            · exact absurd (List.cons.inj same).1 plus
            · exact absurd (List.cons.inj same).1 minus

/-- The reader of exponents and the grammar agree. -/
theorem exponent?_eq_some_iff : exponent? t = some e ↔ Exponent t e := by
  cases t with
  | nil =>
      constructor
      · intro h
        cases h
        exact .absent
      · intro h
        cases h
        rfl
  | cons mark rest =>
      simp only [exponent?]
      constructor
      · intro h
        split at h
        · rename_i isMark
          rcases integer?_eq_some_iff.1 h with
            ⟨digits, nonempty, rfl⟩ | ⟨s, rfl, digits, nonempty, rfl⟩ | ⟨s, rfl, digits, nonempty, rfl⟩
          · exact .unsigned isMark digits nonempty
          · exact .plus isMark digits nonempty
          · exact .minus isMark digits nonempty
        · cases h
      · intro h
        cases h with
        | unsigned isMark digits nonempty =>
            rw [if_pos isMark]
            exact integer?_eq_some_iff.2 (.inl ⟨digits, nonempty, rfl⟩)
        | plus isMark digits nonempty =>
            rw [if_pos isMark]
            exact integer?_eq_some_iff.2 (.inr (.inl ⟨_, rfl, digits, nonempty, rfl⟩))
        | minus isMark digits nonempty =>
            rw [if_pos isMark]
            exact integer?_eq_some_iff.2 (.inr (.inr ⟨_, rfl, digits, nonempty, rfl⟩))

/-- An exponent begins with its mark, so the digits and the point before it end there. -/
theorem Exponent.head (exponent : Exponent t e) :
    ∀ b ∈ t.head?, Byte.isDigit b = false ∧ b ≠ Byte.point := by
  intro b mem
  cases exponent with
  | absent =>
      cases mem
  | unsigned isMark digits nonempty =>
      cases mem
      exact ⟨Byte.not_isDigit_of_isMark isMark, Byte.ne_point_of_isMark isMark⟩
  | plus isMark digits nonempty =>
      cases mem
      exact ⟨Byte.not_isDigit_of_isMark isMark, Byte.ne_point_of_isMark isMark⟩
  | minus isMark digits nonempty =>
      cases mem
      exact ⟨Byte.not_isDigit_of_isMark isMark, Byte.ne_point_of_isMark isMark⟩

/-! ## Numerals without sign -/

theorem splitFraction_point (t : Bytes) : splitFraction (Byte.point :: t) = splitDigits t := by
  simp [splitFraction]

theorem splitFraction_of_ne_point (h : ∀ b ∈ t.head?, b ≠ Byte.point) : splitFraction t = ([], t) := by
  cases t with
  | nil =>
      rfl
  | cons b rest =>
      have : b ≠ Byte.point := h b (by simp)
      simp [splitFraction, this]

/-- A mantissa and an exponent, one after the other, are read as the decimal of both. -/
theorem unsigned?_of_mantissa (negative : Bool) (mantissa : Mantissa s n places)
    (exponent : Exponent t e) : unsigned? negative (s ++ t) = some ⟨negative, n, e - places⟩ := by
  -- The digits end where the exponent or the text does.
  have ends : EndsDigits t := fun b mem => (exponent.head b mem).1
  have found : exponent? t = some e := exponent?_eq_some_iff.2 exponent
  cases mantissa with
  | whole digits nonempty =>
      have cut : splitDigits (s ++ t) = (s, t) := splitDigits_append digits ends
      have noPoint : splitFraction t = ([], t) :=
        splitFraction_of_ne_point fun b mem => (exponent.head b mem).2
      simp [unsigned?, cut, noPoint, found, nonempty]
  | @pointed whole fraction digits nonempty =>
      have digitsWhole : Digits whole := fun b mem => digits b (List.mem_append_left _ mem)
      have digitsFraction : Digits fraction := fun b mem => digits b (List.mem_append_right _ mem)
      -- The whole digits end at the point.
      have endsPoint : EndsDigits (Byte.point :: (fraction ++ t)) := by
        intro b mem
        cases mem
        decide
      have cut : splitDigits (whole ++ Byte.point :: fraction ++ t)
          = (whole, Byte.point :: (fraction ++ t)) := by
        rw [List.append_assoc]
        exact splitDigits_append digitsWhole endsPoint
      have cutFraction : splitDigits (fraction ++ t) = (fraction, t) :=
        splitDigits_append digitsFraction ends
      have some : ¬ (whole = [] ∧ fraction = []) := by
        rintro ⟨rfl, rfl⟩
        exact nonempty rfl
      simp only [unsigned?, cut, splitFraction_point, cutFraction, found, Option.map_some]
      rw [if_neg (by simpa using some)]

/-- The reader of numerals without sign and the grammar agree. -/
theorem unsigned?_eq_some_iff {negative : Bool} :
    unsigned? negative text = some d ↔
      ∃ s t n places e, text = s ++ t ∧ Mantissa s n places ∧ Exponent t e ∧
        d = ⟨negative, n, e - places⟩ := by
  constructor
  · intro h
    rcases splitDigits_spec text with ⟨digitsWhole, cut⟩
    unfold unsigned? at h
    -- The cut is named, so that the text can be replaced by its two parts.
    generalize splitDigits text = parts at h digitsWhole cut
    rcases parts with ⟨whole, afterWhole⟩
    simp only at h digitsWhole cut
    subst cut
    -- The fraction is there exactly if a point comes next.
    by_cases point : ∃ rest, afterWhole = Byte.point :: rest
    · rcases point with ⟨rest, rfl⟩
      rw [splitFraction_point] at h
      rcases splitDigits_spec rest with ⟨digitsFraction, cutFraction⟩
      generalize splitDigits rest = parts at h digitsFraction cutFraction
      rcases parts with ⟨fraction, afterFraction⟩
      simp only at h digitsFraction cutFraction
      subst cutFraction
      split at h
      · cases h
      · rename_i some
        rcases Option.map_eq_some_iff.1 h with ⟨e, found, rfl⟩
        have digits : Digits (whole ++ fraction) := by
          intro b mem
          rcases List.mem_append.1 mem with left | right
          · exact digitsWhole b left
          · exact digitsFraction b right
        have nonempty : whole ++ fraction ≠ [] := by
          intro empty
          exact some (by simpa using empty)
        exact ⟨whole ++ Byte.point :: fraction, afterFraction, _, _, e, by simp,
          .pointed digits nonempty, exponent?_eq_some_iff.1 found, rfl⟩
    · have noPoint : splitFraction afterWhole = ([], afterWhole) := by
        apply splitFraction_of_ne_point
        rintro b mem rfl
        cases afterWhole with
        | nil =>
            cases mem
        | cons c rest =>
            cases mem
            exact point ⟨rest, rfl⟩
      rw [noPoint] at h
      simp only at h
      split at h
      · cases h
      · rename_i some
        rcases Option.map_eq_some_iff.1 h with ⟨e, found, rfl⟩
        have nonempty : whole ≠ [] := by
          intro empty
          exact some (by simp [empty])
        refine ⟨whole, afterWhole, _, 0, e, rfl, .whole digitsWhole nonempty,
          exponent?_eq_some_iff.1 found, ?_⟩
        simp
  · rintro ⟨s, t, n, places, e, rfl, mantissa, exponent, rfl⟩
    exact unsigned?_of_mantissa negative mantissa exponent

/-! ## Numerals -/

/-- A mantissa has digits and a point, and nothing else. -/
theorem Mantissa.digit_or_point (mantissa : Mantissa s n places) :
    ∀ b ∈ s, Byte.isDigit b = true ∨ b = Byte.point := by
  intro b mem
  cases mantissa with
  | whole digits nonempty =>
      exact .inl (digits b mem)
  | pointed digits nonempty =>
      rcases List.mem_append.1 mem with left | right
      · exact .inl (digits b (List.mem_append_left _ left))
      · rcases List.mem_cons.1 right with point | right
        · exact .inr point
        · exact .inl (digits b (List.mem_append_right _ right))

/-- A numeral without sign does not begin with a minus sign. -/
theorem Mantissa.head_ne_minus (mantissa : Mantissa s n places) :
    ∃ b rest, s = b :: rest ∧ b ≠ Byte.minus := by
  cases mantissa with
  | whole digits nonempty =>
      cases s with
      | nil =>
          exact absurd rfl nonempty
      | cons b rest =>
          refine ⟨b, rest, rfl, ?_⟩
          rintro rfl
          exact absurd (digits Byte.minus (by simp)) (by decide)
  | @pointed whole fraction digits nonempty =>
      cases whole with
      | nil =>
          exact ⟨Byte.point, fraction, rfl, by decide⟩
      | cons b rest =>
          refine ⟨b, rest ++ Byte.point :: fraction, rfl, ?_⟩
          rintro rfl
          exact absurd (digits Byte.minus (by simp)) (by decide)

/-- The reader accepts exactly the numerals. -/
theorem read?_eq_some_iff : read? text = some d ↔ Numeral text d := by
  constructor
  · intro h
    cases text with
    | nil =>
        cases h
    | cons b rest =>
        simp only [read?] at h
        split at h
        · rename_i minus
          subst minus
          rcases unsigned?_eq_some_iff.1 h with ⟨s, t, n, places, e, rfl, mantissa, exponent, rfl⟩
          simpa [sign] using Numeral.intro true mantissa exponent
        · rcases unsigned?_eq_some_iff.1 h with ⟨s, t, n, places, e, same, mantissa, exponent, rfl⟩
          rw [same]
          simpa [sign] using Numeral.intro false mantissa exponent
  · intro h
    cases h with
    | @intro negative s t n places e mantissa exponent =>
        cases negative with
        | true =>
            simp only [sign, if_true, List.cons_append, read?]
            exact unsigned?_of_mantissa true mantissa exponent
        | false =>
            -- No minus sign was written, and none is found.
            rcases mantissa.head_ne_minus with ⟨b, rest, rfl, notMinus⟩
            have found := unsigned?_of_mantissa false mantissa exponent
            simp only [sign, List.nil_append, List.cons_append, read?, if_neg notMinus,
              Bool.false_eq_true, if_false]
            exact found

/-- A numeral spells one decimal. -/
theorem Numeral.unique {d' : Decimal} (first : Numeral text d) (second : Numeral text d') : d = d' := by
  have read := read?_eq_some_iff.2 first
  rw [read?_eq_some_iff.2 second] at read
  exact (Option.some.inj read).symm

end Decimal

end JsonStream
