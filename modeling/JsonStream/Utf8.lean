import JsonStream.Byte

/-!
# UTF-8

Text in a document need not be valid UTF-8. `Utf8.pieces` cuts any sequence of bytes into characters
and ill-formed pieces, each ill-formed piece being as long as it can be while still a proper beginning
of some character's encoding, and one byte long where there is no such beginning. Nothing is lost: the
pieces' bytes, put one after another, are the bytes that were cut.

The reader goes byte by byte. What it remembers between two bytes is a `Partial` character.
-/

namespace JsonStream.Utf8

/-- A stretch of bytes that is a character, or that is part of none. -/
inductive Piece
  | char (c : Char)
  | bad (bytes : Bytes)
  deriving DecidableEq, Repr

/-- A character whose encoding has begun and is not finished: the bytes read of it, the bits that they contribute,
how many bytes come after the next one, and the bounds of the next one. -/
structure Partial where
  seen : Bytes
  code : Nat
  more : Nat
  low : UInt8
  high : UInt8
  deriving DecidableEq, Repr

/-! ## Cutting -/

/-- What a byte begins when no character is in progress. The bounds on the second byte exclude overlong
encodings, surrogates and codes beyond the last plane. -/
def start (b : UInt8) : List Piece × Option Partial :=
  if b < 0x80 then ([.char (Char.ofNat b.toNat)], none)
  else if b < 0xC2 then ([.bad [b]], none)
  else if b < 0xE0 then ([], some ⟨[b], b.toNat % 32, 0, 0x80, 0xBF⟩)
  else if b = 0xE0 then ([], some ⟨[b], 0, 1, 0xA0, 0xBF⟩)
  else if b = 0xED then ([], some ⟨[b], 0x0D, 1, 0x80, 0x9F⟩)
  else if b < 0xF0 then ([], some ⟨[b], b.toNat % 16, 1, 0x80, 0xBF⟩)
  else if b = 0xF0 then ([], some ⟨[b], 0, 2, 0x90, 0xBF⟩)
  else if b < 0xF4 then ([], some ⟨[b], b.toNat % 8, 2, 0x80, 0xBF⟩)
  else if b = 0xF4 then ([], some ⟨[b], 4, 2, 0x80, 0x8F⟩)
  else ([.bad [b]], none)

/-- What a byte adds to a character in progress, or that the character breaks off before it. -/
def Partial.next (p : Partial) (b : UInt8) : List Piece × Option Partial :=
  if p.low ≤ b ∧ b ≤ p.high then
    let code := p.code * 64 + b.toNat % 64
    match p.more with
    | 0 => ([.char (Char.ofNat code)], none)
    | n + 1 => ([], some ⟨p.seen ++ [b], code, n, 0x80, 0xBF⟩)
  else
    let (pieces, state) := start b
    (.bad p.seen :: pieces, state)

/-- The pieces that one more byte settles, and what is in progress after it. -/
def next : Option Partial → UInt8 → List Piece × Option Partial
  | none, b => start b
  | some p, b => p.next b

def piecesFrom : Option Partial → Bytes → List Piece
  | none, [] => []
  | some p, [] => [.bad p.seen]
  | state, b :: rest => (next state b).1 ++ piecesFrom (next state b).2 rest

def pieces (bytes : Bytes) : List Piece :=
  piecesFrom none bytes

/-! ## Reading as characters -/

def replacement : Char :=
  '\uFFFD'

def Piece.toChar : Piece → Char
  | .char c => c
  | .bad _ => replacement

/-- The characters of a sequence of bytes, with one replacement character for each ill-formed piece. -/
def lossy (bytes : Bytes) : List Char :=
  (pieces bytes).map Piece.toChar

def decode? (bytes : Bytes) : Option (List Char) :=
  (pieces bytes).mapM fun
    | .char c => some c
    | .bad _ => none

/-! ## Writing -/

def encode (text : List Char) : Bytes :=
  text.flatMap String.utf8EncodeChar

end JsonStream.Utf8
