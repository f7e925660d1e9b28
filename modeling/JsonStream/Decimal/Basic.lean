import JsonStream.Byte
import JsonStream.Binary64.Rounding

/-!
# Decimal numerals

A numeral is read in two stages. Its spelling gives a `Decimal`, an integer significand scaled by a power
of ten, with no bound on either; a decimal gives the nearest binary64 number, if that is finite.

The spelling is an optional minus sign, digits with an optional point among them, after them or (with
digits following) before them, and an optional exponent with an optional sign. So `1.`, `-.5` and `007`
are numerals, and `1e`, `.`, `--1` and `1-2` are not.
-/

namespace JsonStream

/-- The number `significand * 10 ^ exponent`, negated if `negative`. The sign of zero is kept. -/
structure Decimal where
  negative : Bool
  significand : Nat
  exponent : Int
  deriving DecidableEq, Repr

namespace Decimal

/-! ## Reading -/

def ofDigits (digits : Bytes) : Nat :=
  digits.foldl (fun n b => 10 * n + Byte.digitValue b) 0

/-- The digits that a text begins with, and what follows them. -/
def splitDigits (text : Bytes) : Bytes × Bytes :=
  (text.takeWhile Byte.isDigit, text.dropWhile Byte.isDigit)

def natural? (text : Bytes) : Option Nat :=
  if text.isEmpty || !text.all Byte.isDigit then none else some (ofDigits text)

def integer? : Bytes → Option Int
  | [] => none
  | b :: rest =>
    if b = Byte.minus then (natural? rest).map fun (n : Nat) => -(n : Int)
    else if b = Byte.plus then (natural? rest).map fun (n : Nat) => (n : Int)
    else (natural? (b :: rest)).map fun (n : Nat) => (n : Int)

/-- The exponent that ends a numeral: zero where nothing is written. -/
def exponent? : Bytes → Option Int
  | [] => some 0
  | b :: rest => if b = Byte.lowerE ∨ b = Byte.upperE then integer? rest else none

def splitFraction : Bytes → Bytes × Bytes
  | [] => ([], [])
  | b :: rest => if b = Byte.point then splitDigits rest else ([], b :: rest)

def unsigned? (negative : Bool) (text : Bytes) : Option Decimal :=
  let (whole, afterWhole) := splitDigits text
  let (fraction, afterFraction) := splitFraction afterWhole
  if whole.isEmpty && fraction.isEmpty then none
  else (exponent? afterFraction).map fun e =>
    ⟨negative, ofDigits (whole ++ fraction), e - fraction.length⟩

/-- The decimal that a numeral spells. -/
def read? : Bytes → Option Decimal
  | [] => none
  | b :: rest => if b = Byte.minus then unsigned? true rest else unsigned? false (b :: rest)

/-! ## Rounding to binary64 -/

/-- The rank nearest to `significand * 10 ^ exponent`, which may be that of no finite number.

Exponents far outside the range of binary64 are settled without computing the power: from 10³⁰⁹ on every
positive number is too large, and as `10 ^ n` is not below `2 ^ (3 * n)`, the second bound leaves less than
half of the least positive magnitude. -/
def nearestRank (significand : Nat) : Int → Nat
  | .ofNat n =>
    if significand = 0 then 0
    else if 308 < n then Binary64.rankLimit
    else Binary64.nearestRank (significand * Nat.pow 10 n * Nat.pow 2 1074) 1
  | .negSucc n =>
    if significand.log2 + 1100 < 3 * (n + 1) then 0
    else Binary64.nearestRank (significand * Nat.pow 2 1074) (Nat.pow 10 (n + 1))

/-- The binary64 number nearest to a decimal, ties to even, if it is finite. -/
def toBinary64? (d : Decimal) : Option Binary64 :=
  Binary64.ofRank? d.negative (nearestRank d.significand d.exponent)

end Decimal

/-- The binary64 number that a numeral stands for. There is none if the text is no numeral, and none if
its value is too large. -/
def Binary64.read? (text : Bytes) : Option Binary64 :=
  (Decimal.read? text).bind Decimal.toBinary64?

end JsonStream
