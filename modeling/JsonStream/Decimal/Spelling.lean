import JsonStream.Decimal.Basic

/-!
# The spelling of decimals

Numerals as a relation between spellings and decimals, put together from its parts: an optional minus sign,
whole digits and fraction, and an optional exponent. The relation is said without reading from left to
right; `Decimal.read?` is the function that decides it.
-/

namespace JsonStream.Decimal

def Digits (s : Bytes) : Prop :=
  ∀ b ∈ s, Byte.isDigit b = true

/-- Digits with at most one point among them, the integer they spell without the point, and the number of
digits after the point. -/
inductive Mantissa : Bytes → Nat → Nat → Prop
  | whole {s : Bytes} (digits : Digits s) (nonempty : s ≠ []) :
    Mantissa s (ofDigits s) 0
  | pointed {s t : Bytes} (digits : Digits (s ++ t)) (nonempty : s ++ t ≠ []) :
    Mantissa (s ++ Byte.point :: t) (ofDigits (s ++ t)) t.length

inductive Exponent : Bytes → Int → Prop
  | absent : Exponent [] 0
  | unsigned {mark : UInt8} {s : Bytes} (isMark : mark = Byte.lowerE ∨ mark = Byte.upperE)
    (digits : Digits s) (nonempty : s ≠ []) : Exponent (mark :: s) (ofDigits s)
  | plus {mark : UInt8} {s : Bytes} (isMark : mark = Byte.lowerE ∨ mark = Byte.upperE)
    (digits : Digits s) (nonempty : s ≠ []) : Exponent (mark :: Byte.plus :: s) (ofDigits s)
  | minus {mark : UInt8} {s : Bytes} (isMark : mark = Byte.lowerE ∨ mark = Byte.upperE)
    (digits : Digits s) (nonempty : s ≠ []) : Exponent (mark :: Byte.minus :: s) (-(ofDigits s : Int))

def sign (negative : Bool) : Bytes :=
  if negative then [Byte.minus] else []

inductive Numeral : Bytes → Decimal → Prop
  | intro (negative : Bool) {s t : Bytes} {n places : Nat} {e : Int} (mantissa : Mantissa s n places)
    (exponent : Exponent t e) :
    Numeral (sign negative ++ s ++ t) ⟨negative, n, e - places⟩

end JsonStream.Decimal
