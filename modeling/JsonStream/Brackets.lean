import JsonStream.Kind

/-!
# Bracket scanner

The least that can be said of a document without decoding it: whether a byte is inside a string, and which
brackets are open outside strings. The scanner accepts everything and knows nothing of commas, colons,
keywords, numbers, options or limits.
-/

namespace JsonStream.Brackets

inductive Mode
  | outside
  | inside
  | escaped
  deriving DecidableEq, Repr

structure Scan where
  mode : Mode := .outside
  stack : List Container := []
  deriving DecidableEq, Repr

namespace Scan

def outside (stack : List Container) (b : UInt8) : Scan :=
  if b = Byte.quote then ⟨.inside, stack⟩
  else match Container.openedBy? b with
    | some c => ⟨.outside, c :: stack⟩
    | none => if (Container.closedBy? b).isSome then ⟨.outside, stack.tail⟩ else ⟨.outside, stack⟩

def next (s : Scan) (b : UInt8) : Scan :=
  match s.mode with
  | .outside => outside s.stack b
  | .inside =>
    if b = Byte.quote then ⟨.outside, s.stack⟩
    else if b = Byte.backslash then ⟨.escaped, s.stack⟩
    else s
  | .escaped => ⟨.inside, s.stack⟩

end Scan

def scan (bytes : Bytes) : Scan :=
  bytes.foldl Scan.next {}

/-! ## Blanking -/

def isOddControl (b : UInt8) : Bool :=
  decide (b < Byte.space) && b != Byte.tab && b != Byte.lineFeed && b != Byte.carriageReturn

/-- The bytes with a space for each odd control byte that the scanner meets outside strings. -/
def blankedFrom : Scan → Bytes → Bytes
  | _, [] => []
  | s, b :: rest =>
    (if s.mode = .outside ∧ isOddControl b = true then Byte.space else b) :: blankedFrom (s.next b) rest

/-- A document without odd control bytes outside its strings. -/
def blanked (bytes : Bytes) : Bytes :=
  blankedFrom {} bytes

end JsonStream.Brackets
