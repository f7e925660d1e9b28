import JsonStream.Branch
import JsonStream.Brackets
import JsonStream.Tree.Run

/-!
# Runs side by side

All that can be seen of a session while bytes are fed, one entry for each byte, so that two runs can be compared
as wholes. The runs to compare are those under options that differ only in what is white space, and of two texts
that differ only in control bytes outside strings. Whether a byte is inside a string is decided by the quotes and
backslashes before it.
-/

namespace JsonStream

/-! ## What a session shows -/

structure Snapshot where
  status : Status
  tree : Option Tree
  root : Branch
  position : Position
  -- What the end of the input would give here.
  finish : Except Failure Value

namespace Session

def snapshot (s : Session) (status : Status) : Snapshot where
  status := status
  tree := s.tree
  root := s.current.branch
  position := s.position
  finish := s.finish.answer

/-- What the session shows after each byte, up to the first that is refused and with its failure. -/
def snapshots (s : Session) : Bytes → List (Except Failure Snapshot)
  | [] => []
  | b :: rest =>
    let reply := s.feed b
    match reply.answer with
    | .error failure => [.error failure]
    | .ok status => .ok (reply.session.snapshot status) :: reply.session.snapshots rest

/-- Whether a document is accepted, and its value, is part of what is shown. -/
theorem decode_eq_of_snapshots (s : Session) (bytes : Bytes) :
    s.decode bytes = ((s.snapshots bytes).getLast?.map fun last => last.bind Snapshot.finish).getD
      s.finish.answer := by
  induction bytes generalizing s with
  | nil =>
      rfl
  | cons b rest ih =>
      have after : s.decode (b :: rest) = match (s.feed b).answer with
          | .error failure => .error failure
          | .ok _ => (s.feed b).session.decode rest := by
        rw [decode, feedAll]
        cases (s.feed b).answer with
        | error failure =>
            rfl
        | ok status =>
            rfl
      rw [after, snapshots]
      cases (s.feed b).answer with
      | error failure =>
          rfl
      | ok status =>
          simp only [ih, List.getLast?_cons]
          cases ((s.feed b).session.snapshots rest).getLast? with
          | none =>
              rfl
          | some last =>
              rfl

end Session

/-! ## The choice of white space -/

namespace Options

def lenient (o : Options) : Options :=
  { o with lenientWhitespace := true }

def strict (o : Options) : Options :=
  { o with lenientWhitespace := false }

end Options

namespace Brackets

def Mode.next (m : Mode) (b : UInt8) : Mode :=
  match m with
  | outside => if b = Byte.quote then inside else outside
  | inside => if b = Byte.quote then outside else if b = Byte.backslash then escaped else inside
  | escaped => inside

/-- What a byte becomes that the scanner meets in this mode. -/
def Mode.blank (m : Mode) (b : UInt8) : UInt8 :=
  if m = outside ∧ isOddControl b = true then Byte.space else b

end Brackets

end JsonStream
