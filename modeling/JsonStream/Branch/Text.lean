import JsonStream.Branch
import JsonStream.Tree.Text

/-!
# Texts from the outside in

The texts of a value in progress, read off what is remembered of it: each value is written by its kind, and a
container by the children that have ended. The payload of a value in progress is not there yet. Plain JSON has
null for it, and JSON for data exchange has whatever is remembered, which need not be the payload.
-/

namespace JsonStream.Branch

open Text (Dialect Term)

/-! ## JSON -/

def visibleScalar (n : Branch) : Value :=
  match n.kind, n.text with
  | some (.keyword (.bool b)), _ => if n.isComplete then .bool b else .null
  | some .number, _ => if n.isComplete then .number n.number else .null
  | some .string, some text => .string text
  | _, _ => .null

def filledScalar (n : Branch) : Value :=
  match n.kind with
  | some (.keyword w) => w.value
  | some .number => .number n.number
  | some .string => .string (n.text.getD [])
  | _ => .null

mutual

/-- A value as JSON, where `scalar` says what is written for a value that is no container. -/
def writeWith (d : Dialect) (scalar : Branch → Value) : Branch → List Char
  | ⟨kind, number, text, name, children, stage, token, active⟩ =>
    match kind with
    | some (.container .array) => '[' :: writeItems d scalar [] children ++ [']']
    | some (.container .object) => '\x7b' :: writeMembers d scalar [] children ++ ['\x7d']
    | _ => d.write (scalar ⟨kind, number, text, name, children, stage, token, active⟩)

def writeItems (d : Dialect) (scalar : Branch → Value) (lead : List Char) : List Branch → List Char
  | [] => []
  | n :: rest => lead ++ n.writeWith d scalar ++ writeItems d scalar [','] rest

/-- Children as members. A child without a name, of which an object has none, would be written with an empty
one. -/
def writeMembers (d : Dialect) (scalar : Branch → Value) (lead : List Char) : List Branch → List Char
  | [] => []
  | n :: rest =>
    lead ++ d.string (n.name.getD []) ++ ':' :: n.writeWith d scalar ++ writeMembers d scalar [','] rest

end

/-- The value as plain JSON. -/
def display (n : Branch) : List Char :=
  n.writeWith .plain visibleScalar

/-- The value as JSON for data exchange. -/
def exchange (n : Branch) : List Char :=
  n.writeWith .exchange filledScalar

/-! ## Dumps -/

mutual

/-- A value as a term: its kind, its name, the payload that goes with the kind, and its stage. -/
def term : Branch → Term
  | ⟨kind, number, text, name, children, stage, _, _⟩ =>
    Text.nodeTerm name kind
      (match kind with
        | some .number => [("number", Text.numberTerm number)]
        | some .string => [("text", .ofOption (text.map Text.quotedTerm))]
        | some (.container _) => [("children", .list (terms children))]
        | _ => [])
      stage

def terms : List Branch → List Term
  | [] => []
  | n :: rest => n.term :: terms rest

end

def dump (n : Branch) : String :=
  n.term.flat

end JsonStream.Branch
