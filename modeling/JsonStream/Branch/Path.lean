import JsonStream.Branch

/-!
# Places inside a value

Inside a value are the children that have ended and at most one that is in progress. The values in progress,
each inside the one before, are a chain from the outside in. Every value inside another also has an address:
the way to it from child to child, where the child in progress comes after those that have ended. A child keeps
its address when it ends.
-/

namespace JsonStream.Branch

/-! ## The chain of values in progress -/

/-- The value, the value in progress inside it, and so on. -/
def chain : Branch → List Branch
  | ⟨kind, number, text, name, children, stage, token, active⟩ =>
    ⟨kind, number, text, name, children, stage, token, active⟩ :: match active with
      | some child => child.chain
      | none => []

def innermost : Branch → Branch
  | ⟨kind, number, text, name, children, stage, token, active⟩ =>
    match active with
    | some child => child.innermost
    | none => ⟨kind, number, text, name, children, stage, token, active⟩

/-- The container that the value is, unless it has ended. -/
def open? (n : Branch) : Option Container :=
  match n.stage, n.kind with
  | some _, some (.container c) => some c
  | _, _ => none

/-- The containers on the chain that have not ended, the outermost first. -/
def openContainers (n : Branch) : List Container :=
  n.chain.filterMap open?

/-! ## Addresses -/

/-- The way to a value inside another: at each step the number of children before the next value. -/
abbrev Path := List Nat

/-- The values directly inside: the children that have ended and the one in progress. -/
def parts (n : Branch) : List Branch :=
  n.children ++ n.active.toList

def at? (n : Branch) : Path → Option Branch
  | [] => some n
  | i :: path => n.parts[i]?.bind fun child => child.at? path

def childrenAt (n : Branch) (path : Path) : List Branch :=
  ((n.at? path).map children).getD []

def container? (n : Branch) : Option Container :=
  match n.kind with
  | some (.container c) => some c
  | _ => none

/-- The values that a place is inside of, the outermost first. There need not be a value at the place itself. -/
def enclosing (n : Branch) : Path → List Branch
  | [] => []
  | i :: path => n :: ((n.parts[i]?.map fun child => child.enclosing path).getD [])

def containersAround (n : Branch) (path : Path) : List Container :=
  (n.enclosing path).filterMap container?

@[simp]
theorem at?_nil (n : Branch) : n.at? [] = some n :=
  rfl

/-- An address is followed one step at a time. -/
theorem at?_cons (n : Branch) (i : Nat) (path : Path) :
    n.at? (i :: path) = n.parts[i]?.bind fun child => child.at? path :=
  rfl

theorem container?_eq_some_iff {n : Branch} {c : Container} :
    n.container? = some c ↔ n.kind = some (.container c) := by
  unfold container?
  split
  · rename_i d kind
    simp [kind]
  · rename_i other
    exact iff_of_false nofun (other c)

end JsonStream.Branch
