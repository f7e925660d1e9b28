import JsonStream.Byte

/-!
# Kinds of value

The three keywords, the two containers, and the kinds that values are sorted into. Each keyword has a
spelling and each container a pair of brackets; both are found from their first byte.
-/

namespace JsonStream

/-! ## Keywords -/

inductive Keyword
  | null
  | bool (b : Bool)
  deriving DecidableEq, Repr

namespace Keyword

def word : Keyword → String
  | .null => "null"
  | .bool false => "false"
  | .bool true => "true"

def spelling : Keyword → Bytes
  | .null => [0x6E, 0x75, 0x6C, 0x6C]
  | .bool false => [0x66, 0x61, 0x6C, 0x73, 0x65]
  | .bool true => [0x74, 0x72, 0x75, 0x65]

def name : Keyword → String
  | .null => "Null"
  | .bool false => "False"
  | .bool true => "True"

def startingWith? (b : UInt8) : Option Keyword :=
  if b = Byte.lowerN then some .null
  else if b = Byte.lowerT then some (.bool true)
  else if b = Byte.lowerF then some (.bool false)
  else none

/-- A keyword is begun by the first byte of its spelling and by nothing else. -/
theorem startingWith?_eq_some_iff {b : UInt8} {w : Keyword} :
    startingWith? b = some w ↔ w.spelling.head? = some b := by
  constructor
  · intro h
    unfold startingWith? at h
    split at h
    · cases h; simp [spelling, *]
    · split at h
      · cases h; simp [spelling, *]
      · split at h
        · cases h; simp [spelling, *]
        · cases h
  · intro h
    cases w with
    | null => cases h; rfl
    | bool c =>
      cases c with
      | false => cases h; rfl
      | true => cases h; rfl

theorem one_lt_length (w : Keyword) : 1 < w.spelling.length := by
  cases w with
  | null => decide
  | bool c =>
    cases c with
    | false => decide
    | true => decide

end Keyword

/-! ## Containers -/

inductive Container
  | array
  | object
  deriving DecidableEq, Repr

namespace Container

def opening : Container → UInt8
  | array => Byte.openBracket
  | object => Byte.openBrace

def closing : Container → UInt8
  | array => Byte.closeBracket
  | object => Byte.closeBrace

def name : Container → String
  | array => "Array"
  | object => "Object"

def openedBy? (b : UInt8) : Option Container :=
  if b = Byte.openBracket then some array
  else if b = Byte.openBrace then some object
  else none

def closedBy? (b : UInt8) : Option Container :=
  if b = Byte.closeBracket then some array
  else if b = Byte.closeBrace then some object
  else none

/-- A byte opens a container exactly if it is the opening bracket of it. -/
theorem openedBy?_eq_some_iff {b : UInt8} {c : Container} :
    openedBy? b = some c ↔ b = c.opening := by
  constructor
  · intro h
    unfold openedBy? at h
    split at h
    · cases h; assumption
    · split at h
      · cases h; assumption
      · cases h
  · rintro rfl
    cases c <;> rfl

theorem closedBy?_eq_some_iff {b : UInt8} {c : Container} :
    closedBy? b = some c ↔ b = c.closing := by
  constructor
  · intro h
    unfold closedBy? at h
    split at h
    · cases h; assumption
    · split at h
      · cases h; assumption
      · cases h
  · rintro rfl
    cases c <;> rfl

end Container

/-! ## Kinds -/

inductive Kind
  | keyword (word : Keyword)
  | number
  | string
  | container (c : Container)
  deriving DecidableEq, Repr

namespace Kind

def name : Kind → String
  | keyword w => w.name
  | number => "Number"
  | string => "String"
  | container c => c.name

def isContainer : Kind → Bool
  | container _ => true
  | _ => false

end Kind

end JsonStream
