import JsonStream.Utf8
import JsonStream.Value

/-!
# Measures of content

Functions on a whole value that look at every part of it: how deep its containers nest, which byte strings
it holds, and the same value with every byte string changed.
-/

namespace JsonStream.Value

/-! ## Nesting -/

mutual

/-- The greatest number of containers inside one another, the value itself included. -/
def height : Value → Nat
  | array items => heightItems items + 1
  | object members => heightMembers members + 1
  | null | bool _ | number _ | string _ => 0

def heightItems : List Value → Nat
  | [] => 0
  | v :: rest => max v.height (heightItems rest)

def heightMembers : List (Bytes × Value) → Nat
  | [] => 0
  | (_, v) :: rest => max v.height (heightMembers rest)

end

/-! ## Byte strings -/

mutual

/-- The strings and names of a value, in the order of the document. -/
def texts : Value → List Bytes
  | string text => [text]
  | array items => textsItems items
  | object members => textsMembers members
  | null | bool _ | number _ => []

def textsItems : List Value → List Bytes
  | [] => []
  | v :: rest => v.texts ++ textsItems rest

def textsMembers : List (Bytes × Value) → List Bytes
  | [] => []
  | (name, v) :: rest => name :: v.texts ++ textsMembers rest

end

mutual

/-- The value with every string and name changed by `f`. -/
def mapTexts (f : Bytes → Bytes) : Value → Value
  | null => null
  | bool b => bool b
  | number x => number x
  | string text => string (f text)
  | array items => array (mapTextsItems f items)
  | object members => object (mapTextsMembers f members)

def mapTextsItems (f : Bytes → Bytes) : List Value → List Value
  | [] => []
  | v :: rest => v.mapTexts f :: mapTextsItems f rest

def mapTextsMembers (f : Bytes → Bytes) : List (Bytes × Value) → List (Bytes × Value)
  | [] => []
  | (name, v) :: rest => (f name, v.mapTexts f) :: mapTextsMembers f rest

end

/-- The value with a replacement character for each ill-formed piece of its strings and names. -/
def repaired (v : Value) : Value :=
  v.mapTexts fun text => Utf8.encode (Utf8.lossy text)

end JsonStream.Value
