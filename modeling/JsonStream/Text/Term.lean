/-!
# Terms

The notation of dumps: names, applications, lists and records with named fields. A term is written either
flat, on one line, or indented, with each part of a list, an application or a record on a line of its own
and a comma after it.
-/

namespace JsonStream.Text

inductive Term
  | atom (text : String)
  | apply (name : String) (argument : Term)
  | list (items : List Term)
  | record (name : String) (fields : List (String × Term))
  deriving Repr

namespace Term

def ofOption : Option Term → Term
  | none => atom "None"
  | some t => apply "Some" t

def ofNat (n : Nat) : Term :=
  atom (toString n)

def ofBool (b : Bool) : Term :=
  atom (if b then "true" else "false")

/-! ## On one line -/

mutual

def flat : Term → String
  | atom text => text
  | apply name argument => name ++ "(" ++ argument.flat ++ ")"
  | list items => "[" ++ flatItems "" items ++ "]"
  | record name fields => name ++ " \x7b " ++ flatFields "" fields ++ " \x7d"

/-- The items of a list, the first after `lead` and the others after a comma. -/
def flatItems (lead : String) : List Term → String
  | [] => ""
  | t :: rest => lead ++ t.flat ++ flatItems ", " rest

def flatFields (lead : String) : List (String × Term) → String
  | [] => ""
  | (name, t) :: rest => lead ++ name ++ ": " ++ t.flat ++ flatFields ", " rest

end

/-! ## Over several lines -/

def newLine (depth : Nat) : String :=
  "\n" ++ "".pushn ' ' (4 * depth)

mutual

/-- A term over several lines, inside `depth` others. -/
def indented (depth : Nat) : Term → String
  | atom text => text
  | apply name argument =>
    name ++ "(" ++ newLine (depth + 1) ++ argument.indented (depth + 1) ++ "," ++ newLine depth ++ ")"
  | list [] => "[]"
  | list (t :: rest) => "[" ++ indentedItems depth (t :: rest) ++ newLine depth ++ "]"
  | record name fields =>
    name ++ " \x7b" ++ indentedFields depth fields ++ newLine depth ++ "\x7d"

def indentedItems (depth : Nat) : List Term → String
  | [] => ""
  | t :: rest =>
    newLine (depth + 1) ++ t.indented (depth + 1) ++ "," ++ indentedItems depth rest

def indentedFields (depth : Nat) : List (String × Term) → String
  | [] => ""
  | (name, t) :: rest =>
    newLine (depth + 1) ++ name ++ ": " ++ t.indented (depth + 1) ++ "," ++ indentedFields depth rest

end

end Term

end JsonStream.Text
