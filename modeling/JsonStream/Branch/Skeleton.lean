import JsonStream.Branch
import JsonStream.Tree.Run

/-!
# Skeletons

What is left of a tree when all content that has been decoded is forgotten: what each value on the way to
the one in progress waits for, whether it has children, and of a token in progress the bytes of a number or a
keyword and the length of a string. What a run of bytes comes to, byte by byte, is looked at in the same
way.
-/

namespace JsonStream

namespace Branch

inductive Remnant
  | nothing
  | bytes (token : Bytes)
  | length (length : Nat)
  deriving DecidableEq, Repr

/-- A value without its content. -/
structure Skeleton where
  stage : Option Stage
  childless : Bool
  token : Remnant
  active : Option Skeleton

def remnant (stage : Option Stage) (token : Array UInt8) : Remnant :=
  match stage with
  | some .number | some (.keyword _) => .bytes token.toList
  | some .string | some .escape => .length token.size
  | _ => .nothing

def skeleton : Branch → Skeleton
  | ⟨_, _, _, _, children, stage, token, active⟩ =>
    { stage
      childless := children.isEmpty
      token := remnant stage token
      active := match active with
        | some child => some child.skeleton
        | none => none }

/-- The skeleton field by field, without the form in which it is computed. -/
theorem skeleton_eq (n : Branch) :
    n.skeleton = ⟨n.stage, n.children.isEmpty, remnant n.stage n.token, n.active.map skeleton⟩ := by
  rcases n with ⟨kind, number, text, name, children, stage, token, active⟩
  cases active <;> rfl

/-- A value after a byte without its content, and whether it has ended. -/
def bare (result : Branch × Status) : Skeleton × Status :=
  (result.1.skeleton, result.2)

/-- What bytes come to, each under its own options, without the content: one result after another, up to the
first byte that is refused. -/
def results : Branch → List (Options × UInt8) → List (Except Fault (Skeleton × Status))
  | _, [] => []
  | n, (o, b) :: rest =>
    match n.feed o b with
    | .error fault => [.error fault]
    | .ok result => .ok (bare result) :: result.1.results rest

end Branch

def Session.results (s : Session) : Bytes → List (Except Fault (Branch.Skeleton × Status))
  | [] => []
  | b :: rest =>
    let reply := s.feed b
    match reply.answer with
    | .error failure => [.error failure.fault]
    | .ok status => .ok (reply.session.current.branch.skeleton, status) :: reply.session.results rest

end JsonStream
