import JsonStream.Branch
import JsonStream.Text.Unsigned

/-!
# Equality of values in progress

Two values are equal if they show the same: the kind, the name, the payload that goes with the kind, and the
children that have ended, in their order. What is remembered of a token or of a child in progress is not compared.

Numbers are compared by their interchange format, in which there are more patterns than finite numbers: equality
of binary64 is not reflexive. `Binary64.sameBits_bits` says that for finite numbers it is `Binary64.same`.
-/

namespace JsonStream

namespace Binary64

/-- A pattern of the interchange format that is not a number. Its magnitude is above infinity. -/
def isNaN (bits : Nat) : Bool :=
  decide (rankLimit < bits % Nat.pow 2 63)

/-- Equality of two patterns of the interchange format: what is not a number differs from everything, itself
included, and the two zeros are equal. -/
def sameBits (a b : Nat) : Bool :=
  !isNaN a && !isNaN b && (a == b || a % Nat.pow 2 63 == 0 && b % Nat.pow 2 63 == 0)

end Binary64

namespace Branch

def samePayload (kind : Option Kind) (number number' : Binary64) (text text' : Option Bytes) : Bool :=
  match kind with
  | some .number => Binary64.sameBits number.bits number'.bits
  | some .string => text == text'
  | _ => true

mutual

def same : Branch → Branch → Bool
  | ⟨kind, number, text, name, children, _, _, _⟩, m =>
    kind == m.kind && name == m.name && samePayload kind number m.number text m.text && sameAll children m.children

def sameAll : List Branch → List Branch → Bool
  | [], [] => true
  | n :: ns, m :: ms => n.same m && sameAll ns ms
  | _, _ => false

end

mutual

/-- What is compared of a value, with zeros without a sign. -/
def shown : Branch → Branch
  | ⟨kind, number, text, name, children, _, _, _⟩ =>
    { kind
      number := if kind = some .number then number.unsigned else .zero false
      text := if kind = some .string then text else none
      name
      children := shownAll children }

def shownAll : List Branch → List Branch
  | [] => []
  | n :: ns => n.shown :: shownAll ns

end

end Branch

end JsonStream
