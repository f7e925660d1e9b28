import JsonStream.Branch
import JsonStream.Tree.Chronicle

/-!
# Chronicles from the outside in

The events that a branch must have gone through, read off the branch: those of its name, its opening
bracket, those of the children that have ended and of the child in progress, and its closing bracket.
-/

namespace JsonStream

/-- The events of a name: its string has ended, and was found to name a member. -/
def Event.naming : Option Bytes → List Event
  | some name => [.string name.length, .member name]
  | none => []

namespace Branch

mutual

/-- The events of a value inside `depth` containers, with those of its name. -/
def chronicle (depth : Nat) : Branch → List Event
  | ⟨kind, _, text, name, children, stage, _, active⟩ =>
    Event.naming name ++
      match kind with
      | some (.container c) =>
        .opened c depth :: chronicleAll (depth + 1) children
          ++ (match active with
            | some child => child.chronicle (depth + 1)
            | none => [])
          ++ (if stage.isNone then [.closed c children.length] else [])
      | some .string => if stage.isNone then [.string (text.getD []).length] else []
      | _ => []

def chronicleAll (depth : Nat) : List Branch → List Event
  | [] => []
  | n :: rest => n.chronicle depth ++ chronicleAll depth rest

end

variable {depth : Nat} {name : Option Bytes} {c : Container} {children : List Branch}

/-- A container in progress with a child in progress. -/
theorem chronicle_within (stage : Stage) (child : Branch) :
    chronicle depth
        { kind := some (.container c), name, children, stage := some stage, active := some child } =
      Event.naming name ++ (.opened c depth :: chronicleAll (depth + 1) children)
        ++ child.chronicle (depth + 1) := by
  simp [chronicle]

/-- A container in progress between two children. -/
theorem chronicle_between (stage : Stage) :
    chronicle depth { kind := some (.container c), name, children, stage := some stage } =
      Event.naming name ++ (.opened c depth :: chronicleAll (depth + 1) children) := by
  simp [chronicle]

/-- A container that has ended. -/
theorem chronicle_closed :
    chronicle depth { kind := some (.container c), name, children, stage := none } =
      Event.naming name ++ (.opened c depth :: chronicleAll (depth + 1) children)
        ++ [.closed c children.length] := by
  simp [chronicle]

end Branch

end JsonStream
