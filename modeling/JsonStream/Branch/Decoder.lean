import JsonStream.Branch
import JsonStream.Session.Operations

/-!
# Sessions from the outside in

The same operations as on a `Session`, with the tree held as a branch. A byte goes down through all the
containers around the place it is for, and if it is refused there, any of the values on the way may have
been changed already. What such a byte leaves of the tree is a parameter here: nothing is assumed of it,
and it is dropped before the next operation.
-/

namespace JsonStream

/-- A session whose tree is held from the outside in. -/
structure Decoder where
  options : Options := {}
  root : Option Branch := none
  position : Position := {}

/-- A session, with its tree from the outside in. -/
def Session.decoder (s : Session) : Decoder :=
  ⟨s.options, s.tree.map Tree.branch, s.position⟩

namespace Decoder

def start (options : Options) : Decoder :=
  { options }

def reset (d : Decoder) : Decoder :=
  { d with root := none, position := {} }

def take (d : Decoder) : Option Branch × Decoder :=
  (d.root, { d with root := none, position := {} })

/-- The failure at the present position, and the decoder without whatever is left of its tree. -/
def fail (d : Decoder) (fault : Fault) : Decoder × Failure :=
  (d.reset, ⟨fault, d.position⟩)

/-- Feeds a byte. A refused one leaves the tree as `leaves` says until the decoder fails. -/
def feed (leaves : Branch → UInt8 → Branch) (d : Decoder) (b : UInt8) : Decoder × Except Failure Status :=
  let root := d.root.getD .fresh
  match root.feed d.options b with
  | .ok (after, status) =>
    ({ d with root := some after, position := d.position.advance b }, .ok status)
  | .error fault =>
    let (failed, failure) := { d with root := some (leaves root b) }.fail fault
    (failed, .error failure)

def finish (d : Decoder) : Except Failure Branch :=
  match d.root with
  | none => .error ({ d with root := none }.fail .unexpectedEnd).2
  | some root =>
    match root.finish with
    | .ok n => .ok n
    | .error fault => .error ({ d with root := none }.fail fault).2

def perform (leaves : Branch → UInt8 → Branch) (d : Decoder) : Operation → Decoder
  | .feed b => (d.feed leaves b).1
  | .take => d.take.2
  | .reset => d.reset

def performAll (leaves : Branch → UInt8 → Branch) (d : Decoder) (ops : List Operation) : Decoder :=
  ops.foldl (perform leaves) d

end Decoder

end JsonStream
