import JsonStream.Branch.Path
import JsonStream.Grammar
import JsonStream.Tree.Run
import Mathlib.Logic.Relation

/-!
# Where white space may stand

Between two tokens any white space may stand, and it makes no difference. The places are those where no string,
number or keyword is in progress; the place after a number is one of them as well, though only what follows
shows that the number has come to its end. Texts are related that differ by white space at such places.
-/

namespace JsonStream

def Stage.isToken : Stage → Bool
  | keyword _ | number | string | escape => true
  | start | element | elementEnd | name | nameEnd | member | memberEnd => false

def Branch.inToken (n : Branch) : Bool :=
  n.innermost.stage.any Stage.isToken

namespace Session

/-- White space may stand here before the rest of a text: no token is in progress, or it is a number and the
rest does not go on with it. -/
def Gap (s : Session) (rest : Bytes) : Prop :=
  s.current.branch.inToken = false ∨
    (s.current.branch.innermost.stage = some .number ∧ ∀ b, rest.head? = some b → Byte.inNumber b = false)

/-- What a byte does that changes nothing. A session that has been fed nothing has an empty tree after it. -/
structure Unmoved (s : Session) (b : UInt8) : Prop where
  answer : (s.feed b).answer = .ok (if s.isComplete then .complete else .pending)
  session : (s.feed b).session = ⟨s.options, some s.current, s.position.advance b⟩
  log : (s.feed b).log = []
  root : s.current.branch.feed s.options b =
    .ok (s.current.branch, if s.isComplete then .complete else .pending)

end Session

/-- The second text has some white space more than the first, at a place where it may stand. -/
inductive Spaced (o : Options) : Bytes → Bytes → Prop
  | intro {before gap rest : Bytes} {s : Session} (run : (Session.start o).feedAll before = .ok s)
    (place : s.Gap rest) (blank : Grammar.Blank o gap) : Spaced o (before ++ rest) (before ++ (gap ++ rest))

end JsonStream
