import JsonStream.Binary64.Basic
import JsonStream.Kind

/-!
# Values

A complete JSON value. Strings and names are byte strings, not necessarily UTF-8. Members keep the order
of the document, and names may repeat.
-/

namespace JsonStream

inductive Value
  | null
  | bool (b : Bool)
  | number (x : Binary64)
  | string (text : Bytes)
  | array (items : List Value)
  | object (members : List (Bytes × Value))
  deriving Repr

def Keyword.value : Keyword → Value
  | .null => .null
  | .bool b => .bool b

namespace Value

def kind : Value → Kind
  | null => .keyword .null
  | bool b => .keyword (.bool b)
  | number _ => .number
  | string _ => .string
  | array _ => .container .array
  | object _ => .container .object

/-! ## Equality -/

mutual

/-- Whether two values denote the same: numbers are compared as numbers, so the two zeros are equal, and
all else must agree in content and order. -/
def same : Value → Value → Bool
  | null, null => true
  | bool a, bool b => a == b
  | number x, number y => x.same y
  | string s, string t => s == t
  | array xs, array ys => sameItems xs ys
  | object ms, object ns => sameMembers ms ns
  | _, _ => false

def sameItems : List Value → List Value → Bool
  | [], [] => true
  | x :: xs, y :: ys => same x y && sameItems xs ys
  | _, _ => false

/-- `same` on rows of members, whose names must be equal byte for byte. -/
def sameMembers : List (Bytes × Value) → List (Bytes × Value) → Bool
  | [], [] => true
  | (a, x) :: xs, (b, y) :: ys => a == b && same x y && sameMembers xs ys
  | _, _ => false

end

/-! ## Identity

Two values are identical only if their numbers have the same sign as well. -/

mutual

def decEq : (v w : Value) → Decidable (v = w)
  | null, w =>
    match w with
    | null => .isTrue rfl
    | bool _ | number _ | string _ | array _ | object _ => .isFalse nofun
  | bool a, w =>
    match w with
    | bool b => decidable_of_iff (a = b) (by simp)
    | null | number _ | string _ | array _ | object _ => .isFalse nofun
  | number x, w =>
    match w with
    | number y => decidable_of_iff (x = y) (by simp)
    | null | bool _ | string _ | array _ | object _ => .isFalse nofun
  | string s, w =>
    match w with
    | string t => decidable_of_iff (s = t) (by simp)
    | null | bool _ | number _ | array _ | object _ => .isFalse nofun
  | array xs, w =>
    match w with
    | array ys =>
      match decEqItems xs ys with
      | .isTrue h => .isTrue (by rw [h])
      | .isFalse h => .isFalse (by simp [h])
    | null | bool _ | number _ | string _ | object _ => .isFalse nofun
  | object ms, w =>
    match w with
    | object ns =>
      match decEqMembers ms ns with
      | .isTrue h => .isTrue (by rw [h])
      | .isFalse h => .isFalse (by simp [h])
    | null | bool _ | number _ | string _ | array _ => .isFalse nofun

def decEqItems : (xs ys : List Value) → Decidable (xs = ys)
  | [], [] => .isTrue rfl
  | [], _ :: _ => .isFalse nofun
  | _ :: _, [] => .isFalse nofun
  | x :: xs, y :: ys =>
    match decEq x y, decEqItems xs ys with
    | .isTrue h, .isTrue hs => .isTrue (by rw [h, hs])
    | .isFalse h, _ => .isFalse (by simp [h])
    | _, .isFalse hs => .isFalse (by simp [hs])

def decEqMembers : (ms ns : List (Bytes × Value)) → Decidable (ms = ns)
  | [], [] => .isTrue rfl
  | [], _ :: _ => .isFalse nofun
  | _ :: _, [] => .isFalse nofun
  | (a, x) :: ms, (b, y) :: ns =>
    if hab : a = b then
      match decEq x y, decEqMembers ms ns with
      | .isTrue h, .isTrue hs => .isTrue (by rw [hab, h, hs])
      | .isFalse h, _ => .isFalse (by simp [h])
      | _, .isFalse hs => .isFalse (by simp [hs])
    else .isFalse (by simp [hab])

end

instance : DecidableEq Value :=
  decEq

end Value

end JsonStream
