import JsonStream.Byte

/-!
# Escapes

The escapes of strings are one byte after a backslash. Seven bytes need or deserve one when written; the
slash has one that is only read. There is no escape that gives a character by its number.
-/

namespace JsonStream.Escape

/-- The byte that an escape stands for. -/
def decode? (b : UInt8) : Option UInt8 :=
  if b = Byte.quote ∨ b = Byte.backslash ∨ b = Byte.slash then some b
  else if b = Byte.lowerB then some Byte.backspace
  else if b = Byte.lowerF then some Byte.formFeed
  else if b = Byte.lowerN then some Byte.lineFeed
  else if b = Byte.lowerR then some Byte.carriageReturn
  else if b = Byte.lowerT then some Byte.tab
  else none

def letter? (c : Char) : Option Char :=
  if c = '"' ∨ c = '\\' then some c
  else if c = '\x08' then some 'b'
  else if c = '\x0c' then some 'f'
  else if c = '\n' then some 'n'
  else if c = '\r' then some 'r'
  else if c = '\t' then some 't'
  else none

/-- What is written after the backslash is read as the character it was written for. -/
theorem decode?_of_letter? {c letter : Char} (h : letter? c = some letter) :
    decode? letter.toNat.toUInt8 = some c.toNat.toUInt8 := by
  unfold letter? at h
  split at h
  · rename_i same
    cases h
    cases same with
    | inl quote => subst quote; decide
    | inr backslash => subst backslash; decide
  · split at h
    · cases h; subst c; decide
    · split at h
      · cases h; subst c; decide
      · split at h
        · cases h; subst c; decide
        · split at h
          · cases h; subst c; decide
          · split at h
            · cases h; subst c; decide
            · cases h

end JsonStream.Escape
