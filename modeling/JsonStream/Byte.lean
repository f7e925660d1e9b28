/-!
# Bytes

The input of a decoder is a sequence of bytes, not of characters. This module names the bytes that
the grammar of JSON gives a meaning to, the classes it sorts them into, and the printable spelling
of a single byte that messages use.
-/

namespace JsonStream

abbrev Bytes := List UInt8

namespace Byte

/-! ## Named bytes -/

abbrev backspace : UInt8 := 0x08
abbrev tab : UInt8 := 0x09
abbrev lineFeed : UInt8 := 0x0A
abbrev formFeed : UInt8 := 0x0C
abbrev carriageReturn : UInt8 := 0x0D
abbrev space : UInt8 := 0x20
abbrev quote : UInt8 := 0x22
abbrev apostrophe : UInt8 := 0x27
abbrev plus : UInt8 := 0x2B
abbrev comma : UInt8 := 0x2C
abbrev minus : UInt8 := 0x2D
abbrev point : UInt8 := 0x2E
abbrev slash : UInt8 := 0x2F
abbrev digitZero : UInt8 := 0x30
abbrev digitNine : UInt8 := 0x39
abbrev colon : UInt8 := 0x3A
abbrev upperE : UInt8 := 0x45
abbrev openBracket : UInt8 := 0x5B
abbrev backslash : UInt8 := 0x5C
abbrev closeBracket : UInt8 := 0x5D
abbrev lowerB : UInt8 := 0x62
abbrev lowerE : UInt8 := 0x65
abbrev lowerF : UInt8 := 0x66
abbrev lowerN : UInt8 := 0x6E
abbrev lowerR : UInt8 := 0x72
abbrev lowerT : UInt8 := 0x74
abbrev lowerU : UInt8 := 0x75
abbrev openBrace : UInt8 := 0x7B
abbrev closeBrace : UInt8 := 0x7D

/-! ## Classes -/

def isDigit (b : UInt8) : Bool :=
  decide (digitZero ≤ b) && decide (b ≤ digitNine)

def digitValue (b : UInt8) : Nat :=
  b.toNat - digitZero.toNat

/-- The bytes a number may begin with. -/
def startsNumber (b : UInt8) : Bool :=
  b == minus || isDigit b

/-- The bytes a number may consist of. Not every sequence of them is a number. -/
def inNumber (b : UInt8) : Bool :=
  isDigit b || b == point || b == lowerE || b == upperE || b == minus || b == plus

/-- The bytes other than white space that may follow a number. -/
def followsNumber (b : UInt8) : Bool :=
  b == comma || b == closeBrace || b == closeBracket

/-! ## Printable spelling -/

def hexDigit (n : Nat) : Char :=
  if n < 10 then Char.ofNat (0x30 + n) else Char.ofNat (0x57 + n)

def hex (b : UInt8) : List Char :=
  [hexDigit (b.toNat / 16), hexDigit (b.toNat % 16)]

def numbered (b : UInt8) : List Char :=
  '\\' :: 'x' :: hex b

/-- A byte in printable ASCII: the control bytes with a customary letter and the three characters that
delimit or introduce such spellings follow a backslash, other printable bytes stand for themselves,
and every remaining byte is given by its number. -/
def spelled (b : UInt8) : List Char :=
  if b = tab then ['\\', 't']
  else if b = carriageReturn then ['\\', 'r']
  else if b = lineFeed then ['\\', 'n']
  else if b = apostrophe then ['\\', '\'']
  else if b = quote then ['\\', '"']
  else if b = backslash then ['\\', '\\']
  else if 0x20 ≤ b ∧ b ≤ 0x7E then [Char.ofNat b.toNat]
  else numbered b

end Byte

end JsonStream
