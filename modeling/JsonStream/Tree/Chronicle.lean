import JsonStream.Event
import JsonStream.Tree.Basic

/-!
# Chronicles

The events that a tree must have gone through, read off the tree alone. For each value in the order of the
document they are: the end and the meaning of its name, its opening bracket or the end of its string, what
is inside it, and its closing bracket.
-/

namespace JsonStream

mutual

/-- The events of a complete value inside `depth` containers, its name apart. -/
def Value.chronicle (depth : Nat) : Value → List Event
  | .string text => [.string text.length]
  | .array items =>
    .opened .array depth :: chronicleItems (depth + 1) items ++ [.closed .array items.length]
  | .object members =>
    .opened .object depth :: chronicleMembers (depth + 1) members ++ [.closed .object members.length]
  | .null | .bool _ | .number _ => []

def Value.chronicleItems (depth : Nat) : List Value → List Event
  | [] => []
  | v :: rest => v.chronicle depth ++ chronicleItems depth rest

def Value.chronicleMembers (depth : Nat) : List (Bytes × Value) → List Event
  | [] => []
  | (name, v) :: rest =>
    .string name.length :: .member name :: v.chronicle depth ++ chronicleMembers depth rest

end

/-- The events of an open container inside `depth` others: its bracket and its children so far, and the
name of a member whose value is to come. -/
def Frame.chronicle (depth : Nat) : Frame → List Event
  | .array items => .opened .array depth :: Value.chronicleItems (depth + 1) items.toList
  | .object members name =>
    .opened .object depth :: Value.chronicleMembers (depth + 1) members.toList
      ++ [.string name.length, .member name]

def Frame.chronicles : List Frame → List Event
  | [] => []
  | f :: outer => chronicles outer ++ f.chronicle outer.length

def chronicleOpenObject (depth : Nat) (members : Array (Bytes × Value)) : List Event :=
  .opened .object depth :: Value.chronicleMembers (depth + 1) members.toList

def Focus.chronicle (depth : Nat) : Focus → List Event
  | .element items => (Frame.array items).chronicle depth
  | .colon members title => (Frame.object members title).chronicle depth
  | .name members => chronicleOpenObject depth members
  | .string (.name members) _ => chronicleOpenObject depth members
  | .escape (.name members) _ => chronicleOpenObject depth members
  | .blank | .keyword _ _ | .number _ | .string .value _ | .escape .value _ => []

/-- The events of a tree, from the first byte on. -/
def Tree.chronicle : Tree → List Event
  | settled (.document v) => v.chronicle 0
  | settled (.element outer items) =>
    Frame.chronicles outer ++ (Frame.array items).chronicle outer.length
  | settled (.member outer members) =>
    Frame.chronicles outer ++ chronicleOpenObject outer.length members
  | live outer focus => Frame.chronicles outer ++ focus.chronicle outer.length

end JsonStream
