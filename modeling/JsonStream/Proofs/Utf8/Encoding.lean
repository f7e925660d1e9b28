import JsonStream.Utf8

/-!
# Reading what was encoded

`Utf8.pieces` is exact on encodings: it cuts the encoding of characters into these characters, whatever
else it does with bytes that encode none. So a text is an encoding exactly if it stays the same when its
ill-formed pieces are replaced.

- `piecesFrom_encodeChar` — one character
- `lossy_encode` — all characters
- `encode_lossy_eq_iff` — the texts that are encodings
-/

namespace JsonStream.Utf8

variable {p : Partial} {c : Char} {rest : Bytes} {h r v : Nat}

/-! ## Encodings -/

theorem encode_append (cs ds : List Char) : encode (cs ++ ds) = encode cs ++ encode ds :=
  List.flatMap_append

theorem encode_cons (c : Char) (cs : List Char) : encode (c :: cs) = String.utf8EncodeChar c ++ encode cs :=
  List.flatMap_cons

/-- An ASCII character takes one byte. -/
theorem encodeChar_of_lt (ascii : c.toNat < 0x80) : String.utf8EncodeChar c = [UInt8.ofNat c.toNat] :=
  if_pos (Nat.le_of_lt_succ ascii)

/-- The bytes of other characters are no characters by themselves. -/
theorem le_of_mem_encodeChar {b : UInt8} (notAscii : 0x80 ≤ c.toNat)
    (mem : b ∈ String.utf8EncodeChar c) : 0x80 ≤ b := by
  -- Every byte of a longer encoding has its highest bit set.
  have large : ∀ n, 0x80 ≤ n → n < 0x100 → (0x80 : UInt8) ≤ UInt8.ofNat n := by
    intro n low high
    rw [UInt8.le_iff_toNat_le, UInt8.toNat_ofNat', Nat.mod_eq_of_lt high]
    exact low
  have notOne : ¬ c.val.toNat ≤ 0x7F := Nat.not_le.2 notAscii
  rw [String.utf8EncodeChar] at mem
  simp only [if_neg notOne] at mem
  split at mem
  · simp only [List.mem_cons, List.not_mem_nil, or_false] at mem
    rcases mem with rfl | rfl
    all_goals exact large _ (by omega) (by omega)
  · split at mem
    · simp only [List.mem_cons, List.not_mem_nil, or_false] at mem
      rcases mem with rfl | rfl | rfl
      all_goals exact large _ (by omega) (by omega)
    · simp only [List.mem_cons, List.not_mem_nil, or_false] at mem
      rcases mem with rfl | rfl | rfl | rfl
      all_goals exact large _ (by omega) (by omega)

/-! ## First bytes

The bits of a code that the first byte has room for are written `h`. -/

/-- First bytes of encodings of one byte, each one tried. -/
theorem start_one : ∀ n : Fin 128, start (UInt8.ofNat n) = ([.char (Char.ofNat n)], none) := by
  decide

theorem start_two : ∀ h : Fin 32, 2 ≤ h.val →
    start (UInt8.ofNat (h + 0xC0)) = ([], some ⟨[UInt8.ofNat (h + 0xC0)], h, 0, 0x80, 0xBF⟩) := by
  decide

theorem start_three : ∀ h : Fin 16,
    start (UInt8.ofNat (h + 0xE0)) = ([], some ⟨[UInt8.ofNat (h + 0xE0)], h, 1,
      if h.val = 0 then 0xA0 else 0x80, if h.val = 13 then 0x9F else 0xBF⟩) := by
  decide

theorem start_four : ∀ h : Fin 5,
    start (UInt8.ofNat (h + 0xF0)) = ([], some ⟨[UInt8.ofNat (h + 0xF0)], h, 2,
      if h.val = 0 then 0x90 else 0x80, if h.val = 4 then 0x8F else 0xBF⟩) := by
  decide

/-! ## Further bytes

Each has room for six bits, written `r`. -/

theorem toNat_further (bits : r < 64) : (UInt8.ofNat (r + 0x80)).toNat = r + 0x80 := by
  rw [UInt8.toNat_ofNat', Nat.mod_eq_of_lt (by omega)]

/-- The bounds of the next byte, on the six bits that it contributes. -/
theorem within_iff (bits : r < 64) :
    (p.low ≤ UInt8.ofNat (r + 0x80) ∧ UInt8.ofNat (r + 0x80) ≤ p.high) ↔
      p.low.toNat ≤ r + 0x80 ∧ r + 0x80 ≤ p.high.toNat := by
  rw [UInt8.le_iff_toNat_le, UInt8.le_iff_toNat_le, toNat_further bits]

/-- The last byte of a character. -/
theorem next_last (bits : r < 64) (last : p.more = 0)
    (within : p.low.toNat ≤ r + 0x80 ∧ r + 0x80 ≤ p.high.toNat) :
    p.next (UInt8.ofNat (r + 0x80)) = ([.char (Char.ofNat (p.code * 64 + r))], none) := by
  have low : (UInt8.ofNat (r + 0x80)).toNat % 64 = r := by
    rw [toNat_further bits]
    omega
  rw [Partial.next, if_pos ((within_iff bits).2 within), last, low]

/-- A byte of a character that has more. -/
theorem next_more {n : Nat} (bits : r < 64) (more : p.more = n + 1)
    (within : p.low.toNat ≤ r + 0x80 ∧ r + 0x80 ≤ p.high.toNat) :
    p.next (UInt8.ofNat (r + 0x80)) =
      ([], some ⟨p.seen ++ [UInt8.ofNat (r + 0x80)], p.code * 64 + r, n, 0x80, 0xBF⟩) := by
  have low : (UInt8.ofNat (r + 0x80)).toNat % 64 = r := by
    rw [toNat_further bits]
    omega
  rw [Partial.next, if_pos ((within_iff bits).2 within), more, low]

/-! ## Characters -/

theorem piecesFrom_cons (state : Option Partial) (b : UInt8) :
    piecesFrom state (b :: rest) = (next state b).1 ++ piecesFrom (next state b).2 rest := by
  cases state <;> rfl

theorem pieces_two (low : 0x80 ≤ v) (high : v ≤ 0x7FF) :
    piecesFrom none (UInt8.ofNat (v / 64 % 0x20 + 0xC0) :: UInt8.ofNat (v % 0x40 + 0x80) :: rest) =
      .char (Char.ofNat v) :: piecesFrom none rest := by
  have lead : v / 64 % 0x20 = v / 64 := by omega
  have begun := start_two ⟨v / 64, by omega⟩ (show 2 ≤ v / 64 by omega)
  rw [lead, piecesFrom_cons, next, begun, List.nil_append, piecesFrom_cons, next,
    next_last (by omega) rfl ⟨Nat.le_add_left _ _, show v % 64 + 0x80 ≤ 0xBF by omega⟩]
  have code : v / 64 * 64 + v % 64 = v := by omega
  rw [code, List.singleton_append]

/-- An encoding of three bytes is read as its character. Surrogates are not. -/
theorem pieces_three (low : 0x800 ≤ v) (high : v ≤ 0xFFFF) (valid : v < 0xD800 ∨ 0xDFFF < v) :
    piecesFrom none (UInt8.ofNat (v / 4096 % 0x10 + 0xE0) :: UInt8.ofNat (v / 64 % 0x40 + 0x80) ::
        UInt8.ofNat (v % 0x40 + 0x80) :: rest) =
      .char (Char.ofNat v) :: piecesFrom none rest := by
  have lead : v / 4096 % 0x10 = v / 4096 := by omega
  have begun := start_three ⟨v / 4096, by omega⟩
  -- The bounds on the second byte are met because the code is neither too small nor a surrogate.
  have within : (if v / 4096 = 0 then (0xA0 : UInt8) else 0x80).toNat ≤ v / 64 % 64 + 0x80 ∧
      v / 64 % 64 + 0x80 ≤ (if v / 4096 = 13 then (0x9F : UInt8) else 0xBF).toNat := by
    constructor
    · split
      · show 0xA0 ≤ _
        omega
      · exact Nat.le_add_left _ _
    · split
      · show _ ≤ 0x9F
        omega
      · show _ ≤ 0xBF
        omega
  rw [lead, piecesFrom_cons, next, begun, List.nil_append, piecesFrom_cons, next,
    next_more (by omega) rfl within, List.nil_append, piecesFrom_cons, next,
    next_last (by omega) rfl ⟨Nat.le_add_left _ _, show v % 64 + 0x80 ≤ 0xBF by omega⟩]
  have code : (v / 4096 * 64 + v / 64 % 64) * 64 + v % 64 = v := by omega
  rw [code, List.singleton_append]

theorem pieces_four (low : 0x10000 ≤ v) (high : v < 0x110000) :
    piecesFrom none (UInt8.ofNat (v / 262144 % 0x08 + 0xF0) :: UInt8.ofNat (v / 4096 % 0x40 + 0x80) ::
        UInt8.ofNat (v / 64 % 0x40 + 0x80) :: UInt8.ofNat (v % 0x40 + 0x80) :: rest) =
      .char (Char.ofNat v) :: piecesFrom none rest := by
  have lead : v / 262144 % 0x08 = v / 262144 := by omega
  have begun := start_four ⟨v / 262144, by omega⟩
  -- The bounds on the second byte are met because the code is neither too small nor too large.
  have within : (if v / 262144 = 0 then (0x90 : UInt8) else 0x80).toNat ≤ v / 4096 % 64 + 0x80 ∧
      v / 4096 % 64 + 0x80 ≤ (if v / 262144 = 4 then (0x8F : UInt8) else 0xBF).toNat := by
    constructor
    · split
      · show 0x90 ≤ _
        omega
      · exact Nat.le_add_left _ _
    · split
      · show _ ≤ 0x8F
        omega
      · show _ ≤ 0xBF
        omega
  rw [lead, piecesFrom_cons, next, begun, List.nil_append, piecesFrom_cons, next,
    next_more (by omega) rfl within, List.nil_append, piecesFrom_cons, next,
    next_more (by omega) rfl ⟨Nat.le_add_left _ _, show v / 64 % 64 + 0x80 ≤ 0xBF by omega⟩,
    List.nil_append, piecesFrom_cons, next,
    next_last (by omega) rfl ⟨Nat.le_add_left _ _, show v % 64 + 0x80 ≤ 0xBF by omega⟩]
  have code : ((v / 262144 * 64 + v / 4096 % 64) * 64 + v / 64 % 64) * 64 + v % 64 = v := by omega
  rw [code, List.singleton_append]

/-- The encoding of a character is read as that character. -/
theorem piecesFrom_encodeChar (c : Char) (rest : Bytes) :
    piecesFrom none (String.utf8EncodeChar c ++ rest) = .char c :: piecesFrom none rest := by
  obtain ⟨v, same⟩ : ∃ v, c.val.toNat = v := ⟨_, rfl⟩
  have char_eq : Char.ofNat v = c := by
    rw [← same]
    exact Char.ofNat_toNat c
  have valid : v < 0xD800 ∨ 0xDFFF < v ∧ v < 0x110000 := by
    rw [← same]
    exact c.valid
  rw [String.utf8EncodeChar]
  simp only [same]
  rw [← char_eq]
  -- The length of the encoding goes by the code, and so does the case.
  split
  · rename_i one
    rw [List.singleton_append, piecesFrom_cons, next, start_one ⟨v, by omega⟩, List.singleton_append]
  · split
    · exact pieces_two (by omega) (by omega)
    · split
      · exact pieces_three (by omega) (by omega) (by omega)
      · exact pieces_four (by omega) (by omega)

/-- The encoding of some characters is read as these characters. -/
theorem pieces_encode (cs : List Char) : pieces (encode cs) = cs.map .char := by
  induction cs with
  | nil =>
      rfl
  | cons c rest ih =>
      have cut := piecesFrom_encodeChar c (encode rest)
      rw [pieces] at ih ⊢
      rw [encode_cons, cut, ih, List.map_cons]

/-- Reading an encoding gives back what was encoded. -/
theorem lossy_encode (cs : List Char) : lossy (encode cs) = cs := by
  rw [lossy, pieces_encode, List.map_map]
  exact List.map_id cs

/-! ## Texts -/

/-- The text is the encoding of some characters. -/
def WellFormed (text : Bytes) : Prop :=
  ∃ cs, text = encode cs

/-- A text stays the same exactly if there is nothing in it to replace. -/
theorem encode_lossy_eq_iff {text : Bytes} : encode (lossy text) = text ↔ WellFormed text := by
  constructor
  · intro same
    exact ⟨lossy text, same.symm⟩
  · rintro ⟨cs, rfl⟩
    rw [lossy_encode]

end JsonStream.Utf8
