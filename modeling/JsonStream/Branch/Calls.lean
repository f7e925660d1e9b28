import JsonStream.Branch.Path
import JsonStream.Traced

/-!
# Calls for one byte

`Branch.advance` hands a byte on from each container to its child, and in the end some value uses it. Here the
same rules keep a record of every call on the way, whatever becomes of the byte: of the value that is called, of
the depth that it is told, and of how many calls are going on around it.

A container calls for its child in progress, or for one that begins with this byte. It calls once more for itself
when a number has ended inside it, and so does a document for the number that it is. `outcome_feedTrace` says that
the record changes nothing.
-/

namespace JsonStream

namespace Branch

/-! ## Records -/

/-- One call of `advance`: the address of the value and the value as it is then, the depth that it is told, and
the number of calls that are going on around this one. -/
structure Call where
  path : Path := []
  depth : Nat
  nesting : Nat := 0
  value : Branch

/-- The same call, made for something inside the child that has so many others before it. -/
def Call.inside (place : Nat) (call : Call) : Call :=
  { call with path := place :: call.path, nesting := call.nesting + 1 }

end Branch

namespace Traced

variable {α : Type}

def calling (call : Branch.Call) (x : Traced Branch.Call α) : Traced Branch.Call α :=
  { x with entries := call :: x.entries }

def inside (place : Nat) (x : Traced Branch.Call α) : Traced Branch.Call α :=
  { x with entries := x.entries.map (Branch.Call.inside place) }

end Traced

namespace Branch

/-! ## Rules with their calls -/

/-- The container whose children come at a stage, if bytes go to a child there. -/
def childOf? : Option Stage → Option Container
  | some .element => some .array
  | some .name | some .member => some .object
  | _ => none

def beginsChild (n : Branch) (o : Options) (b : UInt8) : Bool :=
  !o.isSpace b && match n.stage with
    | some .element => !(b == Byte.closeBracket && n.children.isEmpty) && b != Byte.closeBrace
    | some .name => b == Byte.quote
    | some .member => true
    | _ => false

/-- A call for a value that hands the byte to no child. -/
def callAlone (o : Options) (b : UInt8) (call : Call) : Traced Call (Branch × Status) :=
  ⟨[call], call.value.advance o b call.depth⟩

def afterValueTrace (n : Branch) (c : Container) (o : Options) (b : UInt8) (depth : Nat)
    (result : Branch × Status) : Traced Call (Branch × Status) :=
  match result with
  | (child, .pending) => .quiet (.ok ({ n with active := some child }, .pending))
  | (child, .complete) =>
    let closed := n.closeChild child c.afterChild
    if child.kind = some .number then callAlone o b { depth, nesting := 1, value := closed }
    else .quiet (.ok (closed, .pending))

def afterChildTrace (n : Branch) (c : Container) (o : Options) (b : UInt8) (depth : Nat)
    (result : Branch × Status) : Traced Call (Branch × Status) :=
  if n.stage = some .name then .quiet (.ok (n.afterName result))
  else n.afterValueTrace c o b depth result

/-- A byte for a value inside `depth` containers, with the calls. -/
def trace (o : Options) (b : UInt8) : Nat → Branch → Traced Call (Branch × Status)
  | depth, ⟨kind, number, text, name, children, stage, token, active⟩ =>
    let n : Branch := ⟨kind, number, text, name, children, stage, token, active⟩
    .calling { depth, value := n } <|
      match childOf? stage with
      | some c =>
        match active with
        | some child =>
          ((child.trace o b (depth + 1)).inside children.length).bind (n.afterChildTrace c o b depth)
        | none =>
          if n.beginsChild o b then
            ((callAlone o b { depth := depth + 1, value := fresh }).inside children.length).bind
              (n.afterChildTrace c o b depth)
          else .quiet (n.advance o b depth)
      | none => .quiet (n.advance o b depth)

def feedTrace (o : Options) (n : Branch) (b : UInt8) : Traced Call (Branch × Status) :=
  (n.trace o b 0).bind fun result =>
    if result.2 = .complete ∧ n.isComplete = false ∧ result.1.kind = some .number then
      callAlone o b { depth := 0, value := result.1 }
    else .quiet (.ok result)

/-- The calls that a byte for a whole document leads to, in their order. -/
def calls (o : Options) (n : Branch) (b : UInt8) : List Call :=
  (n.feedTrace o b).entries

/-! ## Values that are called -/

/-- The value at a place is in progress, like all values that it is inside of, or is the document itself. -/
structure OnChain (n : Branch) (path : Path) (p : Branch) : Prop where
  place : n.at? path = some p
  chain : n.chain[path.length]? = some p

/-- What a call is for: a value on the chain, a child that begins in the innermost value of the chain, or once
more a container on the chain, in which a number has ended. -/
inductive Reaches (n : Branch) (call : Call) : Prop
  | chain (onChain : n.OnChain call.path call.value) (nesting : call.nesting = call.path.length)
  | begun {path : Path} {p : Branch} {c : Container} (onChain : n.OnChain path p)
      (waits : childOf? p.stage = some c) (idle : p.active = none)
      (path_eq : call.path = path ++ [p.children.length]) (value : call.value = fresh)
      (nesting : call.nesting = call.path.length)
  | again {p current number : Branch} {c : Container} (onChain : n.OnChain call.path p)
      (waits : childOf? p.stage = some c) (active : p.active = some current)
      (kind : number.kind = some .number) (value : call.value = p.closeChild number c.afterChild)
      (nesting : call.nesting = call.path.length + 1)

structure EndsDocument (n : Branch) (call : Call) : Prop where
  pending : n.isComplete = false
  kind : call.value.kind = some .number
  path_eq : call.path = []
  nesting : call.nesting = 0

end Branch

end JsonStream
