import JsonStream.Text.Invisible
import JsonStream.Utf8

/-!
# Quoted text

The spelling of a byte string in messages and dumps: between quotes, on one line, and with every byte of
it accounted for. Ill-formed pieces are given byte by byte, so that two byte strings with one spelling are
equal even where both would show the same replacement character.
-/

namespace JsonStream.Text

def byNumber (c : Char) : List Char :=
  ['\\', 'u', '\x7b'] ++ Nat.toDigits 16 c.toNat ++ ['\x7d']

def quotedChar (c : Char) : List Char :=
  if c.toNat = 0 then ['\\', '0']
  else if c.toNat < 0x80 then Byte.spelled c.toNat.toUInt8
  else if isInvisible c then byNumber c
  else [c]

def quotedPiece : Utf8.Piece → List Char
  | .char c => quotedChar c
  | .bad bytes => bytes.flatMap Byte.numbered

/-- A byte string between quotes, with the quotes. -/
def quoted (text : Bytes) : String :=
  String.ofList ('"' :: (Utf8.pieces text).flatMap quotedPiece ++ ['"'])

end JsonStream.Text
