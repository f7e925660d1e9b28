import JsonStream.Value

/-!
# Trees in progress

A tree is what a session has decoded so far of one value. It is held from the inside out: where the last
byte left off comes first, and the containers around that place follow, the innermost first. Each of them
is a `Frame` with the children it has so far, so one byte concerns the place and at most the next frame.

A tree is either *settled*, when a value has just ended, or *live*, when a value or what must come
before one is still in progress. The `Focus` of a live tree says which.
-/

namespace JsonStream

/-- An open container around a value in progress, with its children so far. -/
inductive Frame
  | array (items : Array Value)
  | object (members : Array (Bytes × Value)) (name : Bytes)
  deriving DecidableEq, Repr

inductive Role
  | value
  | name (members : Array (Bytes × Value))
  deriving DecidableEq, Repr

/-- Where the last byte left off inside the innermost frame. -/
inductive Focus
  | blank
  -- The first `seen` bytes of a keyword have come.
  | keyword (word : Keyword) (seen : Nat)
  | number (literal : Array UInt8)
  | string (role : Role) (text : Array UInt8)
  | escape (role : Role) (text : Array UInt8)
  | element (items : Array Value)
  | name (members : Array (Bytes × Value))
  | colon (members : Array (Bytes × Value)) (name : Bytes)
  deriving DecidableEq, Repr

/-- A place where a value has just ended: it is the whole document, the last of the elements of an array, or the
value of the last member of an object. -/
inductive Settled
  | document (value : Value)
  | element (outer : List Frame) (items : Array Value)
  | member (outer : List Frame) (members : Array (Bytes × Value))
  deriving DecidableEq, Repr

inductive Tree
  | settled (place : Settled)
  | live (outer : List Frame) (focus : Focus)
  deriving DecidableEq, Repr

namespace Tree

def empty : Tree :=
  live [] .blank

def value? : Tree → Option Value
  | settled (.document v) => some v
  | _ => none

def isComplete (t : Tree) : Bool :=
  t.value?.isSome

theorem value?_eq_some_iff {t : Tree} {v : Value} :
    t.value? = some v ↔ t = settled (.document v) := by
  constructor
  · intro h
    unfold value? at h
    split at h
    · cases h; rfl
    · cases h
  · rintro rfl
    rfl

/-- A tree is complete exactly if the whole document has ended. -/
theorem isComplete_iff {t : Tree} : t.isComplete = true ↔ ∃ v, t = settled (.document v) := by
  simp only [isComplete, Option.isSome_iff_exists, value?_eq_some_iff]

end Tree

/-- The place reached when a value inside the given frames ends. -/
def Settled.of : List Frame → Value → Settled
  | [], v => document v
  | .array items :: outer, v => element outer (items.push v)
  | .object members name :: outer, v => member outer (members.push (name, v))

def Focus.inside : Container → Focus
  | .array => element #[]
  | .object => name #[]

end JsonStream
