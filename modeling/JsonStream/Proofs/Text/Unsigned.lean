import JsonStream.Proofs.Text.Redecoding
import JsonStream.Text.Unsigned

/-!
# Equal values are written the same but for the signs of zeros

Two values are equal exactly if dropping the signs of zeros makes them identical. In the text of a value the sign of
a zero can be told from all else, so it may as well be dropped there. What is left determines the value: the text
of a value whose strings are well formed is decoded to that value.

- `Value.same_iff_unsigned` — equality as identity
- `plusZerosFrom_string`, `plusZerosFrom_number`, `plusZerosFrom_write` — signs in text
- `write_injective` — no two values have the same text
- `same_iff_plusZeros` — equality of values as equality of texts
-/

namespace JsonStream

open Utf8 (encode lossy)

/-! ## Values -/

/-- Equality of numbers forgets the sign of zero and nothing else. -/
theorem Binary64.same_iff_unsigned (x y : Binary64) : x.same y = true ↔ x.unsigned = y.unsigned := by
  rcases x with ⟨negative, rank, rank_lt⟩
  rcases y with ⟨negative', rank', rank_lt'⟩
  simp only [same, unsigned, Bool.and_eq_true, Bool.or_eq_true, beq_iff_eq]
  by_cases zero : rank = 0
  · by_cases zero' : rank' = 0
    · simp [zero, zero']
    · simp [zero, zero', Ne.symm zero', Binary64.zero, eq_comm]
  · by_cases zero' : rank' = 0
    · simp [zero, zero', Binary64.zero]
    · simp [zero, zero', and_comm]

/-- Only the negative zero has a sign to drop. -/
theorem Binary64.unsigned_of_ne {x : Binary64} (ne : x ≠ .zero true) : x.unsigned = x := by
  rcases x with ⟨negative, rank, rank_lt⟩
  rw [unsigned]
  split
  · rename_i zero
    cases zero
    cases negative with
    | true =>
        exact absurd rfl ne
    | false =>
        rfl
  · rfl

namespace Value

mutual

/-- Two values are equal exactly if they are identical without the signs of zeros. -/
theorem same_iff_unsigned : (v w : Value) → (v.same w = true ↔ v.unsigned = w.unsigned)
  | null, w => by
      cases w <;> simp [same, unsigned]
  | bool b, w => by
      cases w <;> simp [same, unsigned]
  | number x, w => by
      cases w <;> simp [same, unsigned, Binary64.same_iff_unsigned]
  | string text, w => by
      cases w <;> simp [same, unsigned]
  | array items, w => by
      cases w with
      | array others =>
          simp [same, unsigned, sameItems_iff_unsigned items others]
      | _ =>
          simp [same, unsigned]
  | object members, w => by
      cases w with
      | object others =>
          simp [same, unsigned, sameMembers_iff_unsigned members others]
      | _ =>
          simp [same, unsigned]

/-- Rows of elements denote the same exactly if they are equal without signs of zero. -/
theorem sameItems_iff_unsigned : (vs ws : List Value) →
    (sameItems vs ws = true ↔ unsignedItems vs = unsignedItems ws)
  | [], ws => by
      cases ws <;> simp [sameItems, unsignedItems]
  | v :: vs, [] => by
      simp [sameItems, unsignedItems]
  | v :: vs, w :: ws => by
      simp [sameItems, unsignedItems, same_iff_unsigned v w, sameItems_iff_unsigned vs ws]

theorem sameMembers_iff_unsigned : (ms ns : List (Bytes × Value)) →
    (sameMembers ms ns = true ↔ unsignedMembers ms = unsignedMembers ns)
  | [], ns => by
      cases ns <;> simp [sameMembers, unsignedMembers]
  | (name, v) :: ms, [] => by
      simp [sameMembers, unsignedMembers]
  | (name, v) :: ms, (name', w) :: ns => by
      simp [sameMembers, unsignedMembers, same_iff_unsigned v w, sameMembers_iff_unsigned ms ns]

end

mutual

/-- Signs of zero have nothing to do with the texts. -/
theorem texts_unsigned : (v : Value) → v.unsigned.texts = v.texts
  | null | bool _ | number _ | string _ => rfl
  | array items => textsItems_unsigned items
  | object members => textsMembers_unsigned members

theorem textsItems_unsigned : (items : List Value) → textsItems (unsignedItems items) = textsItems items
  | [] => rfl
  | v :: rest => by
      rw [unsignedItems, textsItems, textsItems, texts_unsigned v, textsItems_unsigned rest]

theorem textsMembers_unsigned : (members : List (Bytes × Value)) →
    textsMembers (unsignedMembers members) = textsMembers members
  | [] => rfl
  | (name, v) :: rest => by
      rw [unsignedMembers, textsMembers, textsMembers, texts_unsigned v, textsMembers_unsigned rest]

end

section

variable {f : Bytes → Bytes}

mutual

/-- A value stays as it is if its texts do. -/
theorem mapTexts_of_texts : (v : Value) → (∀ text ∈ v.texts, f text = text) → v.mapTexts f = v
  | null, _ | bool _, _ | number _, _ => rfl
  | string text, stays => congrArg string (stays text List.mem_cons_self)
  | array items, stays => congrArg array (mapTextsItems_of_texts items stays)
  | object members, stays => congrArg object (mapTextsMembers_of_texts members stays)

theorem mapTextsItems_of_texts : (items : List Value) → (∀ text ∈ textsItems items, f text = text) →
    mapTextsItems f items = items
  | [], _ => rfl
  | v :: rest, stays => by
      rw [textsItems, List.forall_mem_append] at stays
      rw [mapTextsItems, mapTexts_of_texts v stays.1, mapTextsItems_of_texts rest stays.2]

theorem mapTextsMembers_of_texts : (members : List (Bytes × Value)) →
    (∀ text ∈ textsMembers members, f text = text) → mapTextsMembers f members = members
  | [], _ => rfl
  | (name, v) :: rest, stays => by
      rw [textsMembers, List.cons_append, List.forall_mem_cons, List.forall_mem_append] at stays
      rw [mapTextsMembers, stays.1, mapTexts_of_texts v stays.2.1, mapTextsMembers_of_texts rest stays.2.2]

end

end

end Value

/-! ## Signs in text -/

namespace Text

open Brackets (Mode)
open Decimal (Numeral)

variable {s rest text : Bytes}

def Boundary (rest : Bytes) : Prop :=
  ∀ b ∈ rest.head?, Byte.inNumber b = false

/-- A number is as long as the bytes of numbers go on. -/
theorem takeWhile_of_boundary (parts : ∀ b ∈ s, Byte.inNumber b = true) (boundary : Boundary rest) :
    (s ++ rest).takeWhile Byte.inNumber = s := by
  rw [List.takeWhile_append_of_pos parts]
  cases rest with
  | nil =>
      exact List.append_nil s
  | cons b rest =>
      rw [List.takeWhile_cons_of_neg (by simp [boundary b rfl]), List.append_nil]

/-- Only a minus sign can begin something that is changed. -/
theorem plusZerosFrom_of_ne_minus {b : UInt8} (m : Mode) (notMinus : b ≠ Byte.minus) (rest : Bytes) :
    plusZerosFrom m (b :: rest) = b :: plusZerosFrom (m.next b) rest :=
  if_neg fun minus => notMinus minus.2.1

/-- Inside strings nothing is changed. -/
theorem plusZerosFrom_of_ne_outside {m : Mode} (inString : m ≠ .outside) (b : UInt8) (rest : Bytes) :
    plusZerosFrom m (b :: rest) = b :: plusZerosFrom (m.next b) rest :=
  if_neg fun minus => inString minus.1

/-- Outside strings only a minus sign is looked at. -/
theorem plusZerosFrom_append (ordinary : ∀ b ∈ s, b ≠ Byte.quote ∧ b ≠ Byte.minus) (rest : Bytes) :
    plusZerosFrom .outside (s ++ rest) = s ++ plusZerosFrom .outside rest := by
  induction s with
  | nil =>
      rfl
  | cons b s ih =>
      rcases List.forall_mem_cons.1 ordinary with ⟨⟨notQuote, notMinus⟩, others⟩
      have next : Mode.next .outside b = .outside := if_neg notQuote
      rw [List.cons_append, plusZerosFrom_of_ne_minus _ notMinus, next, ih others, List.cons_append]

/-- The bytes of a text can be looked through for quotes and minus signs. -/
theorem ordinary_of_all (all : s.all (fun b => b != Byte.quote && b != Byte.minus) = true) :
    ∀ b ∈ s, b ≠ Byte.quote ∧ b ≠ Byte.minus := by
  intro b mem
  have ordinary := List.all_eq_true.1 all b mem
  rwa [Bool.and_eq_true, bne_iff_ne, bne_iff_ne] at ordinary

/-- Inside a string every byte stays. -/
theorem plusZerosFrom_content (content : Grammar.Content s text) (rest : Bytes) :
    plusZerosFrom .inside (s ++ rest) = s ++ plusZerosFrom .inside rest := by
  have inside : Mode.inside ≠ .outside := by decide
  have escaped : Mode.escaped ≠ .outside := by decide
  induction content with
  | nil =>
      rfl
  | @plain b s text notQuote notBackslash content ih =>
      have next : Mode.next .inside b = .inside := (if_neg notQuote).trans (if_neg notBackslash)
      rw [List.cons_append, plusZerosFrom_of_ne_outside inside, next, ih, List.cons_append]
  | escape escape content ih =>
      rw [List.cons_append, List.cons_append, plusZerosFrom_of_ne_outside inside]
      change _ :: plusZerosFrom .escaped _ = _
      rw [plusZerosFrom_of_ne_outside escaped]
      exact congrArg (fun after => _ :: _ :: after) ih

/-- A string as it is written stays as it is, and the scanner is outside again after it. -/
theorem plusZerosFrom_string (text rest : Bytes) :
    plusZerosFrom .outside (encode (Dialect.plain.string text) ++ rest) =
      encode (Dialect.plain.string text) ++ plusZerosFrom .outside rest := by
  have content := content_chars (readable_plain text)
  have notMinus : Byte.quote ≠ Byte.minus := by decide
  have opened : Mode.next .outside Byte.quote = .inside := rfl
  have closed : Mode.next .inside Byte.quote = .outside := rfl
  rw [encode_string, List.cons_append, List.cons_append, List.append_assoc,
    plusZerosFrom_of_ne_minus _ notMinus, opened, plusZerosFrom_content content, List.singleton_append,
    plusZerosFrom_of_ne_minus _ notMinus, closed]
  simp

/-- A number in the plain dialect is a sign and digits with a point. -/
theorem exists_sign (x : Binary64) : ∃ negative s, encode (Dialect.plain.number x) = Decimal.sign negative ++ s ∧
    ∀ b ∈ s, Byte.isDigit b = true ∨ b = Byte.point := by
  obtain ⟨d, numeral, -, -⟩ := (Decimal.writes_render Dialect.plain.layout (x.shortest .up)).numeral
  have parts : ∀ b ∈ encode (Dialect.plain.number x), Byte.isDigit b = true ∨ b = Byte.point ∨ b = Byte.minus :=
    fun b mem => Decimal.mem_render_of_positional rfl mem
  change Numeral (encode (Dialect.plain.number x)) d at numeral
  generalize encode (Dialect.plain.number x) = text at numeral parts
  cases numeral with
  | @intro negative s t n places e mantissa exponent =>
      have noMark : ∀ mark, mark = Byte.lowerE ∨ mark = Byte.upperE → mark ∉ t := by
        rintro mark isMark mem
        have part := parts mark (List.mem_append_right _ mem)
        rcases isMark with rfl | rfl <;> exact absurd part (by decide)
      have none : t = [] := by
        cases exponent with
        | absent =>
            rfl
        | unsigned isMark | plus isMark | minus isMark =>
            exact absurd List.mem_cons_self (noMark _ isMark)
      subst none
      exact ⟨negative, s, List.append_nil _, mantissa.digit_or_point⟩

/-- The numeral of the negative zero is that of no other number. -/
theorem number_ne_minus_zero {x : Binary64} (ne : x ≠ .zero true) :
    encode (Dialect.plain.number x) ≠ [Byte.minus, Byte.digitZero] := by
  intro same
  obtain ⟨d, numeral, rounds⟩ := (number_written (o := { maxTokenLength := none }) rfl Dialect.plain x).numeral
  have read : Binary64.read? [Byte.minus, Byte.digitZero] = some x :=
    Binary64.read?_eq_some_iff.2 ⟨d, same ▸ numeral, rounds⟩
  have zero : Binary64.read? [Byte.minus, Byte.digitZero] = some (.zero true) := by decide +kernel
  exact ne (Option.some.inj (read.symm.trans zero))

theorem ordinary_of_digits (digits : ∀ b ∈ s, Byte.isDigit b = true ∨ b = Byte.point) :
    ∀ b ∈ s, b ≠ Byte.quote ∧ b ≠ Byte.minus := by
  intro b mem
  rcases digits b mem with digit | rfl
  · refine ⟨?_, ?_⟩
    · rintro rfl
      exact absurd digit (by decide)
    · rintro rfl
      exact absurd digit (by decide)
  · decide

/-- A minus sign goes only before a single zero. -/
theorem plusZerosFrom_minus (digits : ∀ b ∈ s, Byte.isDigit b = true ∨ b = Byte.point) (boundary : Boundary rest) :
    plusZerosFrom .outside (Byte.minus :: s ++ rest) =
      (if s = [Byte.digitZero] then s else Byte.minus :: s) ++ plusZerosFrom .outside rest := by
  have parts : ∀ b ∈ s, Byte.inNumber b = true := by
    intro b mem
    rcases digits b mem with digit | rfl
    · simp [Byte.inNumber, digit]
    · rfl
  have next : Mode.next .outside Byte.minus = .outside := rfl
  rw [List.cons_append, plusZerosFrom, takeWhile_of_boundary parts boundary, next,
    plusZerosFrom_append (ordinary_of_digits digits)]
  by_cases zero : s = [Byte.digitZero]
  · rw [if_pos zero, if_pos ⟨rfl, rfl, zero⟩]
  · rw [if_neg zero, if_neg fun minus => zero minus.2.2, List.cons_append]

/-- The sign of a number stays unless the number is zero. -/
theorem plusZerosFrom_number (x : Binary64) (boundary : Boundary rest) :
    plusZerosFrom .outside (encode (Dialect.plain.number x) ++ rest) =
      encode (Dialect.plain.number x.unsigned) ++ plusZerosFrom .outside rest := by
  by_cases zero : x = .zero true
  · subst zero
    have signed : encode (Dialect.plain.number (.zero true)) = Byte.minus :: [Byte.digitZero] := by decide +kernel
    have plain : encode (Dialect.plain.number (Binary64.zero true).unsigned) = [Byte.digitZero] := by decide +kernel
    rw [signed, plain, plusZerosFrom_minus (List.forall_mem_singleton.2 (.inl rfl)) boundary, if_pos rfl]
  · rw [Binary64.unsigned_of_ne zero]
    obtain ⟨negative, s, written, digits⟩ := exists_sign x
    have notZero := number_ne_minus_zero zero
    rw [written] at notZero ⊢
    cases negative with
    | false =>
        exact plusZerosFrom_append (ordinary_of_digits digits) rest
    | true =>
        have other : s ≠ [Byte.digitZero] := by
          rintro rfl
          exact notZero rfl
        exact (plusZerosFrom_minus digits boundary).trans (congrArg (· ++ _) (if_neg other))

/-! ## Whole values -/

theorem boundary_cons {b : UInt8} (other : Byte.inNumber b = false) (rest : Bytes) : Boundary (b :: rest) := by
  rintro _ ⟨⟩
  exact other

/-- After an element a number does not go on, whether more elements follow or none. -/
theorem boundary_writeItems (items : List Value) (boundary : Boundary rest) :
    Boundary (encode (Dialect.plain.writeItems [','] items) ++ rest) := by
  cases items with
  | nil =>
      exact boundary
  | cons v items =>
      exact boundary_cons (b := Byte.comma) rfl _

theorem boundary_writeMembers (members : List (Bytes × Value)) (boundary : Boundary rest) :
    Boundary (encode (Dialect.plain.writeMembers [','] members) ++ rest) := by
  cases members with
  | nil =>
      exact boundary
  | cons member members =>
      exact boundary_cons (b := Byte.comma) rfl _

def Lead (lead : List Char) : Prop :=
  lead = [] ∨ lead = [',']

theorem Lead.ordinary {lead : List Char} (isLead : Lead lead) :
    ∀ b ∈ encode lead, b ≠ Byte.quote ∧ b ≠ Byte.minus := by
  rcases isLead with rfl | rfl
  · exact ordinary_of_all rfl
  · exact ordinary_of_all rfl

/-- Brackets and what is between them. -/
theorem plusZerosFrom_between {a b : UInt8} {inside inside' : Bytes} (first : a ≠ Byte.quote ∧ a ≠ Byte.minus)
    (last : b ≠ Byte.quote ∧ b ≠ Byte.minus)
    (between : plusZerosFrom .outside (inside ++ b :: rest) = inside' ++ plusZerosFrom .outside (b :: rest)) :
    plusZerosFrom .outside (a :: inside ++ [b] ++ rest) = a :: inside' ++ [b] ++ plusZerosFrom .outside rest := by
  have opening := plusZerosFrom_append (s := [a]) (List.forall_mem_singleton.2 first) (inside ++ b :: rest)
  have closing := plusZerosFrom_append (s := [b]) (List.forall_mem_singleton.2 last) rest
  rw [List.singleton_append] at closing
  rw [between, closing] at opening
  simpa using opening

mutual

/-- Dropping the signs of zeros from the text of a value is the same as dropping them from the value. -/
theorem plusZerosFrom_write : (v : Value) → ∀ rest, Boundary rest →
    plusZerosFrom .outside (encode (Dialect.plain.write v) ++ rest) =
      encode (Dialect.plain.write v.unsigned) ++ plusZerosFrom .outside rest
  | .null, rest, _ => plusZerosFrom_append (ordinary_of_all rfl) rest
  | .bool false, rest, _ => plusZerosFrom_append (ordinary_of_all rfl) rest
  | .bool true, rest, _ => plusZerosFrom_append (ordinary_of_all rfl) rest
  | .number x, _, boundary => plusZerosFrom_number x boundary
  | .string text, rest, _ => plusZerosFrom_string text rest
  | .array items, rest, _ => by
      have inside := plusZerosFrom_writeItems items (.inl rfl) (Byte.closeBracket :: rest) (boundary_cons rfl _)
      rw [Value.unsigned, Dialect.write, Dialect.write, encode_bracket _ _ _ (by decide) (by decide),
        encode_bracket _ _ _ (by decide) (by decide)]
      exact plusZerosFrom_between (by decide) (by decide) inside
  | .object members, rest, _ => by
      have inside := plusZerosFrom_writeMembers members (.inl rfl) (Byte.closeBrace :: rest) (boundary_cons rfl _)
      rw [Value.unsigned, Dialect.write, Dialect.write, encode_bracket _ _ _ (by decide) (by decide),
        encode_bracket _ _ _ (by decide) (by decide)]
      exact plusZerosFrom_between (by decide) (by decide) inside

/-- Elements as they are written, with what precedes the first of them. -/
theorem plusZerosFrom_writeItems : (items : List Value) → ∀ {lead : List Char}, Lead lead → ∀ rest, Boundary rest →
    plusZerosFrom .outside (encode (Dialect.plain.writeItems lead items) ++ rest) =
      encode (Dialect.plain.writeItems lead (Value.unsignedItems items)) ++ plusZerosFrom .outside rest
  | [], _, _, _, _ => rfl
  | v :: items, lead, isLead, rest, boundary => by
      have first := plusZerosFrom_write v _ (boundary_writeItems items boundary)
      have others := plusZerosFrom_writeItems items (.inr rfl) rest boundary
      rw [Value.unsignedItems, Dialect.writeItems, Dialect.writeItems]
      simp only [Utf8.encode_append, List.append_assoc]
      rw [plusZerosFrom_append isLead.ordinary, first, others]

theorem plusZerosFrom_writeMembers : (members : List (Bytes × Value)) → ∀ {lead : List Char}, Lead lead →
    ∀ rest, Boundary rest →
      plusZerosFrom .outside (encode (Dialect.plain.writeMembers lead members) ++ rest) =
        encode (Dialect.plain.writeMembers lead (Value.unsignedMembers members)) ++ plusZerosFrom .outside rest
  | [], _, _, _, _ => rfl
  | (name, v) :: members, lead, isLead, rest, boundary => by
      have first := plusZerosFrom_write v _ (boundary_writeMembers members boundary)
      have others := plusZerosFrom_writeMembers members (.inr rfl) rest boundary
      have colon := plusZerosFrom_append (s := encode [':']) (ordinary_of_all rfl)
      have apart : ∀ cs : List Char, ':' :: cs = [':'] ++ cs := fun _ => rfl
      rw [Value.unsignedMembers, Dialect.writeMembers, Dialect.writeMembers, apart (Dialect.plain.write v),
        apart (Dialect.plain.write v.unsigned)]
      simp only [Utf8.encode_append, List.append_assoc]
      rw [plusZerosFrom_append isLead.ordinary, plusZerosFrom_string, colon, first, others]

end

/-- The text of a value without signs of zero is its text with `0` for each `-0`. -/
theorem plusZeros_write (v : Value) :
    plusZeros (encode (Dialect.plain.write v)) = encode (Dialect.plain.write v.unsigned) := by
  have written := plusZerosFrom_write v [] nofun
  rwa [List.append_nil, plusZerosFrom, List.append_nil] at written

/-! ## Equality of texts -/

variable {v w : Value}

/-- Values whose strings are well formed have different texts if they are different. -/
theorem write_injective (left : ∀ text ∈ v.texts, Utf8.WellFormed text)
    (right : ∀ text ∈ w.texts, Utf8.WellFormed text)
    (same : encode (Dialect.plain.write v) = encode (Dialect.plain.write w)) : v = w := by
  -- A session with room for both decodes the one text to both.
  have first := Session.decode_write (o := { maxDepth := max v.height w.height }) (v := v) rfl (le_max_left _ _)
  have second := Session.decode_write (o := { maxDepth := max v.height w.height }) (v := w) rfl (le_max_right _ _)
  rw [same, second] at first
  have stays : v.repaired = v :=
    Value.mapTexts_of_texts v fun text mem => Utf8.encode_lossy_eq_iff.2 (left text mem)
  have stays' : w.repaired = w :=
    Value.mapTexts_of_texts w fun text mem => Utf8.encode_lossy_eq_iff.2 (right text mem)
  rw [← stays, ← stays']
  exact (Except.ok.inj first).symm

/-- Two values are equal exactly if their texts are the same but for the signs of zeros. -/
theorem same_iff_plusZeros (left : ∀ text ∈ v.texts, Utf8.WellFormed text)
    (right : ∀ text ∈ w.texts, Utf8.WellFormed text) :
    v.same w = true ↔
      plusZeros (encode (Dialect.plain.write v)) = plusZeros (encode (Dialect.plain.write w)) := by
  rw [Value.same_iff_unsigned, plusZeros_write, plusZeros_write]
  constructor
  · exact congrArg fun u => encode (Dialect.plain.write u)
  · exact write_injective (v.texts_unsigned.symm ▸ left) (w.texts_unsigned.symm ▸ right)

end Text

end JsonStream
