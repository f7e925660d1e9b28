import JsonStream.Decimal.Basic

/-!
# Layouts of a decimal

How the digits and the exponent of a decimal are set as a numeral. A layout says which magnitudes are
written with an exponent, whether a whole number keeps a fraction, and whether a positive exponent has a
sign. Digits are written as they are: no layout adds or drops a significant digit.
-/

namespace JsonStream.Decimal

/-- The decisions on how a numeral looks. A leading digit whose place value is from the first bound of
`positional` on and below the second is written without exponent; without bounds every one is. -/
structure Layout where
  positional : Option (Int × Int)
  pointZero : Bool
  plusSign : Bool
  deriving Repr

def Layout.isPositional (l : Layout) (place : Int) : Bool :=
  match l.positional with
  | none => true
  | some (low, high) => decide (low ≤ place ∧ place < high)

/-- Digits with the point after the first `whole` of them. Where there are too few digits on a side, zeros
make up for them. -/
def pointed (pointZero : Bool) (digits : List Char) (whole : Int) : List Char :=
  if whole ≤ 0 then
    '0' :: '.' :: List.replicate (-whole).toNat '0' ++ digits
  else if digits.length ≤ whole.toNat then
    digits ++ List.replicate (whole.toNat - digits.length) '0'
      ++ (if pointZero then ['.', '0'] else [])
  else
    digits.take whole.toNat ++ '.' :: digits.drop whole.toNat

def scientific (plusSign : Bool) (digits : List Char) (place : Int) : List Char :=
  digits.take 1
    ++ (if digits.length ≤ 1 then [] else '.' :: digits.drop 1)
    ++ 'e' :: (if place < 0 then ['-'] else if plusSign then ['+'] else [])
    ++ Nat.toDigits 10 place.natAbs

def render (l : Layout) (d : Decimal) : List Char :=
  let digits := Nat.toDigits 10 d.significand
  let whole : Int := digits.length + d.exponent
  (if d.negative then ['-'] else [])
    ++ if l.isPositional (whole - 1) then pointed l.pointZero digits whole
       else scientific l.plusSign digits (whole - 1)

end JsonStream.Decimal
