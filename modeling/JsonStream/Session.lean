import JsonStream.Tree.Feed

/-!
# Sessions

A session decodes one value after another from a stream of bytes, under fixed options. Between two bytes
it holds the tree so far and the position; a failure, like taking the tree away or dropping it, leaves it
as it was made. Every operation returns the session that goes on, its answer, and the records it logs.

A tree can also be fed by itself, without options, positions or causes: `Tree.feedLoose`.
-/

namespace JsonStream

/-! ## Records -/

inductive Level
  | trace
  | debug
  deriving DecidableEq, Repr

def Level.name : Level → String
  | trace => "TRACE"
  | debug => "DEBUG"

/-- What is logged. -/
inductive Record
  | event (e : Event)
  | completed (bytes : Nat)
  | failed (failure : Failure)
  -- A tree fed by itself refused a byte.
  | refused (byte : UInt8) (fault : Fault)
  deriving DecidableEq, Repr

namespace Record

def level : Record → Level
  | event _ => .trace
  | _ => .debug

def message : Record → String
  | event e => e.message
  | completed bytes => "value complete after " ++ toString bytes ++ " bytes"
  | failed failure => "session failed: " ++ failure.message
  | refused byte fault =>
    "session failed at byte 0x" ++ String.ofList (Byte.hex byte) ++ ": " ++ fault.message

end Record

/-! ## Sessions -/

inductive Status
  | pending
  | complete
  deriving DecidableEq, Repr

def Tree.status (t : Tree) : Status :=
  if t.isComplete then .complete else .pending

/-- A decoder between two bytes. -/
structure Session where
  options : Options := {}
  tree : Option Tree := none
  position : Position := {}
  deriving DecidableEq, Repr

structure Reply (α : Type) where
  session : Session
  answer : Except Failure α
  log : List Record

namespace Session

def start (options : Options) : Session :=
  { options }

def isComplete (s : Session) : Bool :=
  match s.tree with
  | some t => t.isComplete
  | none => false

def reset (s : Session) : Session :=
  start s.options

def take (s : Session) : Option Tree × Session :=
  (s.tree, s.reset)

/-- The reply to what cannot be accepted. The tree is dropped. -/
def fail {α : Type} (options : Options) (failure : Failure) : Reply α :=
  ⟨start options, .error failure, [.failed failure]⟩

def feed : Session → UInt8 → Reply Status
  | ⟨options, tree, position⟩, b =>
    let before := tree.getD .empty
    let wasComplete := before.isComplete
    match before.feed options b with
    | .error fault => fail options ⟨fault, position⟩
    | .ok (after, events) =>
      { session := ⟨options, some after, position.advance b⟩
        answer := .ok after.status
        log := events.map .event
          ++ if after.isComplete && !wasComplete then [.completed (position.offset + 1)] else [] }

/-- Says that no more bytes come, and hands out the value. A number that is the whole document is ended
by this. -/
def finish (s : Session) : Reply Value :=
  match s.tree with
  | none => fail s.options ⟨.unexpectedEnd, s.position⟩
  | some t =>
    match t.finish with
    | .error fault => fail s.options ⟨fault, s.position⟩
    | .ok v => ⟨s.reset, .ok v, []⟩

/-- Feeds bytes up to the first that is refused. -/
def feedAll (s : Session) : Bytes → Except Failure Session
  | [] => .ok s
  | b :: rest =>
    let reply := s.feed b
    match reply.answer with
    | .error failure => .error failure
    | .ok _ => reply.session.feedAll rest

/-- A run may be broken off between any two bytes and be gone on with later. -/
theorem feedAll_append (s : Session) (first second : Bytes) :
    s.feedAll (first ++ second) = (s.feedAll first).bind fun t => t.feedAll second := by
  induction first generalizing s with
  | nil => rfl
  | cons b rest ih =>
    simp only [List.cons_append, feedAll]
    cases h : (s.feed b).answer with
    | error failure => rfl
    | ok status => exact ih _

/-- Decodes bytes from here to the end of the input. -/
def decode (s : Session) (bytes : Bytes) : Except Failure Value := do
  let s ← s.feedAll bytes
  s.finish.answer

end Session

/-- Decodes a document under the default options. -/
def decode (bytes : Bytes) : Except Failure Value :=
  (Session.start {}).decode bytes

/-! ## Trees fed by themselves -/

structure Loose where
  tree : Option Tree
  complete : Bool
  log : List Record

/-- Feeds a byte to a tree, or to an empty one, under the default options. -/
def Tree.feedLoose (t : Option Tree) (b : UInt8) : Loose :=
  match (t.getD .empty).feed {} b with
  | .error fault => ⟨none, false, [.refused b fault]⟩
  | .ok (after, events) => ⟨some after, after.isComplete, events.map .event⟩

end JsonStream
