import JsonStream.Decimal.Basic
import Mathlib.Data.List.DropRight

/-!
# Significant digits

The digits of a numeral that count: neither its sign and point, nor its exponent, nor the zeros that only say
where the point is.
-/

namespace JsonStream.Decimal

/-- A row without the zeros at both ends. -/
def trim (row : Bytes) : Bytes :=
  (row.dropWhile (· == Byte.digitZero)).rdropWhile (· == Byte.digitZero)

def figures (text : Bytes) : Bytes :=
  (text.takeWhile fun b => b != Byte.lowerE && b != Byte.upperE).filter Byte.isDigit

/-- The digits of a numeral from the first to the last that is not zero. -/
def significant (text : Bytes) : Bytes :=
  trim (figures text)

end JsonStream.Decimal
