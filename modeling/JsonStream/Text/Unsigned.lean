import JsonStream.Session.Snapshots
import JsonStream.Value.Content

/-!
# Zeros without a sign

The two zeros are equal, and `-0` and `0` are two ways to write one number. Here the sign of every zero is dropped
from a value, and from a text without regard to what it was written for: it is enough to know which bytes are inside
strings.
-/

namespace JsonStream

/-! ## Values -/

def Binary64.unsigned (x : Binary64) : Binary64 :=
  if x.rank = 0 then .zero false else x

namespace Value

mutual

/-- The value with no sign at any zero. -/
def unsigned : Value → Value
  | null => null
  | bool b => bool b
  | number x => number x.unsigned
  | string text => string text
  | array items => array (unsignedItems items)
  | object members => object (unsignedMembers members)

def unsignedItems : List Value → List Value
  | [] => []
  | v :: rest => v.unsigned :: unsignedItems rest

def unsignedMembers : List (Bytes × Value) → List (Bytes × Value)
  | [] => []
  | (name, v) :: rest => (name, v.unsigned) :: unsignedMembers rest

end

end Value

/-! ## Text -/

namespace Text

open Brackets (Mode)

/-- The text with `0` for every number `-0`, from a place on where the brackets are in this mode. -/
def plusZerosFrom : Mode → Bytes → Bytes
  | _, [] => []
  | m, b :: rest =>
    let after := plusZerosFrom (m.next b) rest
    if m = .outside ∧ b = Byte.minus ∧ rest.takeWhile Byte.inNumber = [Byte.digitZero] then after else b :: after

/-- The text with `0` for every number `-0`. -/
def plusZeros (text : Bytes) : Bytes :=
  plusZerosFrom .outside text

end Text

end JsonStream
