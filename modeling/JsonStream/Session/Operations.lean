import JsonStream.Session.Run

/-!
# Operations in any order

Between two bytes the tree of a session can be taken away or dropped, and a session that has refused a byte
can be fed again. So the life of a session is a row of operations, in which it begins anew again and again.
A tree fed by itself lives through the same operations without a session.
-/

namespace JsonStream

inductive Operation
  | feed (b : UInt8)
  | take
  | reset
  deriving DecidableEq, Repr

namespace Session

/-- The session after an operation, whatever the answer. -/
def perform (s : Session) : Operation → Session
  | .feed b => (s.feed b).session
  | .take => s.take.2
  | .reset => s.reset

def performAll (s : Session) (ops : List Operation) : Session :=
  ops.foldl perform s

/-- The bytes fed since the session began, one operation later. It begins anew when a tree is taken, when it
is reset, and when it refuses a byte. -/
def recentAfter (s : Session) (before : Bytes) : Operation → Bytes
  | .feed b =>
    match (s.feed b).answer with
    | .ok _ => before ++ [b]
    | .error _ => []
  | .take | .reset => []

/-- The bytes fed since the session last began, when it had been fed some bytes before the operations. -/
def recent (s : Session) (before : Bytes) : List Operation → Bytes
  | [] => before
  | op :: ops => (s.perform op).recent (s.recentAfter before op) ops

theorem performAll_append (s : Session) (first second : List Operation) :
    s.performAll (first ++ second) = (s.performAll first).performAll second :=
  List.foldl_append

end Session

namespace Tree

/-- A tree fed by itself after an operation. Where a session would begin anew there is no tree. -/
def performLoose (t : Option Tree) : Operation → Option Tree
  | .feed b => (feedLoose t b).tree
  | .take | .reset => none

def performLooseAll (t : Option Tree) (ops : List Operation) : Option Tree :=
  ops.foldl performLoose t

end Tree

end JsonStream
