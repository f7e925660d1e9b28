import JsonStream.Proofs.Utf8.Encoding

/-!
# ASCII in ill-formed text

Whatever else is wrong with a text, its bytes below 128 are read as the characters they are, and no other
bytes are read as such a character: what is longer than a byte never comes out that small.

- `Partial.Sound` — characters in progress that will be no ASCII
- `next_sound`, `char_of_next`, `char_mem_next` — one byte
- `mem_lossy_iff` — whole texts
-/

namespace JsonStream.Utf8

variable {state : Option Partial} {p : Partial} {b : UInt8} {c : Char} {text : Bytes} {code n : Nat}

/-! ## Characters in progress -/

/-- All codes that begin with these bits and have so many more groups of six are characters beyond ASCII. -/
def Spans (code groups : Nat) : Prop :=
  let place := Nat.pow 64 groups
  0x80 ≤ code * place ∧
    ((code + 1) * place ≤ 0xD800 ∨ 0xE000 ≤ code * place ∧ (code + 1) * place ≤ 0x110000)

/-- One more group of six bits. -/
theorem Spans.extend (spans : Spans code (n + 1)) {r : Nat} (bits : r < 64) : Spans (code * 64 + r) n := by
  have place : Nat.pow 64 (n + 1) = 64 * Nat.pow 64 n := Nat.pow_succ'
  have low : code * Nat.pow 64 (n + 1) ≤ (code * 64 + r) * Nat.pow 64 n := by
    rw [place, ← Nat.mul_assoc]
    exact Nat.mul_le_mul_right _ (Nat.le_add_right _ _)
  have high : (code * 64 + r + 1) * Nat.pow 64 n ≤ (code + 1) * Nat.pow 64 (n + 1) := by
    rw [place, ← Nat.mul_assoc]
    exact Nat.mul_le_mul_right _ (by omega)
  simp only [Spans] at spans ⊢
  omega

theorem toNat_ofNat_of_valid (valid : code.isValidChar) : (Char.ofNat code).toNat = code := by
  rw [Char.ofNat, dif_pos valid]
  rfl

/-- A code that is complete is the code of its character. -/
theorem Spans.toNat_ofNat (spans : Spans code 0) : (Char.ofNat code).toNat = code := by
  simp only [Spans, Nat.pow_eq] at spans
  apply toNat_ofNat_of_valid
  unfold Nat.isValidChar
  omega

/-- Whatever bytes complete the character, none is ASCII and neither is the character. -/
structure Partial.Sound (p : Partial) : Prop where
  low : 0x80 ≤ p.low
  spans : ∀ b, p.low ≤ b → b ≤ p.high → Spans (p.code * 64 + b.toNat % 64) p.more

/-- A character in progress is sound if its bounds lead to characters beyond ASCII only. -/
theorem Partial.sound_of {seen : Bytes} {low high : UInt8} (beyond : 0x80 ≤ low.toNat)
    (spans : ∀ r, low.toNat ≤ r → r ≤ high.toNat → Spans (code * 64 + r % 64) n) :
    (Partial.mk seen code n low high).Sound where
  low := UInt8.le_iff_toNat_le.2 beyond
  spans := fun c ge le => spans c.toNat (UInt8.le_iff_toNat_le.1 ge) (UInt8.le_iff_toNat_le.1 le)

/-- The bounds on the second byte keep the codes that are too short, and those of no character, away. -/
theorem start_sound (begun : (start b).2 = some p) : p.Sound := by
  have less : ∀ c : UInt8, b < c ↔ b.toNat < c.toNat := fun c => UInt8.lt_iff_toNat_lt
  have same : ∀ c : UInt8, b = c ↔ b.toNat = c.toNat := fun c => UInt8.toNat_inj.symm
  unfold start at begun
  simp only [less, same, UInt8.reduceToNat] at begun
  repeat' split at begun
  all_goals cases begun
  all_goals
    apply Partial.sound_of
    · decide
    · intro r low high
      simp only [UInt8.reduceToNat] at low high
      simp only [Spans, Nat.pow_eq]
      omega

theorem char_of_start (begun : .char c ∈ (start b).1) : b < 0x80 ∧ c = Char.ofNat b.toNat := by
  unfold start at begun
  split at begun
  · rename_i ascii
    cases List.mem_singleton.1 begun
    exact ⟨ascii, rfl⟩
  · repeat' split at begun
    all_goals simp at begun

/-- An ASCII byte is a character by itself. -/
theorem start_of_ascii (ascii : b < 0x80) : start b = ([.char (Char.ofNat b.toNat)], none) :=
  if_pos ascii

/-! ## One byte -/

def Sound (state : Option Partial) : Prop :=
  ∀ p, state = some p → p.Sound

theorem sound_none : Sound none :=
  nofun

/-- One byte keeps the character in progress sound. -/
theorem next_sound (sound : Sound state) (b : UInt8) : Sound (next state b).2 := by
  intro q found
  cases state with
  | none =>
      exact start_sound found
  | some p =>
      rw [next, Partial.next] at found
      split at found
      · rename_i within
        have spans := (sound p rfl).spans b within.1 within.2
        split at found
        · cases found
        · rename_i n more
          rw [more] at spans
          cases found
          apply Partial.sound_of (by decide)
          intro r _ _
          exact spans.extend (Nat.mod_lt r (by decide))
      · exact start_sound found

/-- A byte read as a character by itself. -/
theorem toNat_ofNat_byte (b : UInt8) : (Char.ofNat b.toNat).toNat = b.toNat := by
  have bound : b.toNat < 256 := b.toNat_lt
  exact toNat_ofNat_of_valid (.inl (by omega))

/-- An ASCII character is read from its byte only. -/
theorem char_of_next (sound : Sound state) (read : .char c ∈ (next state b).1) (ascii : c.toNat < 0x80) :
    UInt8.ofNat c.toNat = b := by
  cases state with
  | none =>
      rw [(char_of_start read).2, toNat_ofNat_byte, UInt8.ofNat_toNat]
  | some p =>
      rw [next, Partial.next] at read
      split at read
      · rename_i within
        have spans := (sound p rfl).spans b within.1 within.2
        split at read
        · rename_i more
          rw [more] at spans
          have beyond : 0x80 ≤ (p.code * 64 + b.toNat % 64) * 64 ^ 0 := spans.1
          have code := spans.toNat_ofNat
          cases List.mem_singleton.1 read
          omega
        · cases read
      · rcases List.mem_cons.1 read with broken | started
        · cases broken
        · rw [(char_of_start started).2, toNat_ofNat_byte, UInt8.ofNat_toNat]

/-- And it always is. -/
theorem char_mem_next (sound : Sound state) (ascii : b < 0x80) :
    .char (Char.ofNat b.toNat) ∈ (next state b).1 := by
  cases state with
  | none =>
      rw [next, start_of_ascii ascii]
      exact List.mem_singleton_self _
  | some p =>
      have outside : ¬ (p.low ≤ b ∧ b ≤ p.high) := by
        intro within
        have beyond := (sound p rfl).low
        rw [UInt8.le_iff_toNat_le] at beyond
        rw [UInt8.le_iff_toNat_le, UInt8.le_iff_toNat_le] at within
        rw [UInt8.lt_iff_toNat_lt] at ascii
        omega
      rw [next, Partial.next, if_neg outside, start_of_ascii ascii]
      exact List.mem_cons_of_mem _ (List.mem_singleton_self _)

/-! ## Texts -/

/-- An ASCII character that is read stands in the text as its byte. -/
theorem ascii_of_piecesFrom (sound : Sound state) (read : .char c ∈ piecesFrom state text)
    (ascii : c.toNat < 0x80) : UInt8.ofNat c.toNat ∈ text := by
  induction text generalizing state with
  | nil =>
      cases state with
      | none =>
          cases read
      | some p =>
          cases List.mem_singleton.1 read
  | cons b rest ih =>
      rw [piecesFrom_cons, List.mem_append] at read
      rcases read with here | later
      · rw [char_of_next sound here ascii]
        exact List.mem_cons_self
      · exact List.mem_cons_of_mem b (ih (next_sound sound b) later)

/-- An ASCII byte in the text is read as its character. -/
theorem char_mem_piecesFrom (sound : Sound state) (mem : b ∈ text) (ascii : b < 0x80) :
    .char (Char.ofNat b.toNat) ∈ piecesFrom state text := by
  induction text generalizing state with
  | nil =>
      cases mem
  | cons a rest ih =>
      rw [piecesFrom_cons, List.mem_append]
      rcases List.mem_cons.1 mem with rfl | later
      · exact .inl (char_mem_next sound ascii)
      · exact .inr (ih (next_sound sound a) later)

/-- The ASCII characters of a text are its bytes below 128. -/
theorem mem_lossy_iff (ascii : c.toNat < 0x80) : c ∈ lossy text ↔ UInt8.ofNat c.toNat ∈ text := by
  rw [lossy, List.mem_map]
  constructor
  · rintro ⟨piece, read, rfl⟩
    cases piece with
    | char c =>
        exact ascii_of_piecesFrom sound_none read ascii
    | bad bytes =>
        have beyond : ¬ replacement.toNat < 0x80 := by decide
        exact absurd ascii beyond
  · intro mem
    have small : (UInt8.ofNat c.toNat).toNat = c.toNat := by
      rw [UInt8.toNat_ofNat', Nat.mod_eq_of_lt (by omega)]
    have byte : UInt8.ofNat c.toNat < 0x80 := by
      rw [UInt8.lt_iff_toNat_lt, small]
      exact ascii
    have read := char_mem_piecesFrom sound_none mem byte
    rw [small, Char.ofNat_toNat] at read
    exact ⟨_, read, rfl⟩

end JsonStream.Utf8
