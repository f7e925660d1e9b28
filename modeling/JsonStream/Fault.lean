import JsonStream.Kind
import JsonStream.Text.Quoted

/-!
# Faults, positions and failures

A `Fault` is the cause for which a byte, or the end of the input, is refused. A `Position` says where, and
a `Failure` is the two together.
-/

namespace JsonStream

/-! ## Causes -/

inductive Fault
  | unexpectedByte (byte : UInt8)
  | invalidEscape (byte : UInt8)
  | keywordMismatch (word : Keyword)
  | mismatchedTerminator (expected found : UInt8)
  | invalidNumber (literal : Bytes)
  | tokenTooLong (limit : Nat)
  | depthExceeded (limit : Nat)
  | unexpectedEnd
  deriving DecidableEq, Repr

def Fault.message : Fault → String
  | unexpectedByte b => "unexpected byte '" ++ String.ofList (Byte.spelled b) ++ "'"
  | invalidEscape b => "invalid escape sequence '\\" ++ String.ofList (Byte.spelled b) ++ "'"
  | keywordMismatch w => "invalid literal, expected `" ++ w.word ++ "`"
  | mismatchedTerminator expected found =>
    "mismatched terminator '" ++ String.ofList (Byte.spelled found) ++ "', expected '"
      ++ String.ofList (Byte.spelled expected) ++ "'"
  | invalidNumber literal => "invalid number literal " ++ Text.quoted literal
  | tokenTooLong limit => "token longer than " ++ toString limit ++ " bytes"
  | depthExceeded limit => "nesting deeper than " ++ toString limit ++ " levels"
  | unexpectedEnd => "unexpected end of input"

/-! ## Places -/

/-- A place between two bytes of the input. Lines and columns are counted from one, and columns in bytes. -/
structure Position where
  offset : Nat := 0
  line : Nat := 1
  column : Nat := 1
  deriving DecidableEq, Repr

/-- The place after one more byte. Only a line feed ends a line, also inside a string. -/
def Position.advance (p : Position) (b : UInt8) : Position :=
  if b = Byte.lineFeed then ⟨p.offset + 1, p.line + 1, 1⟩
  else ⟨p.offset + 1, p.line, p.column + 1⟩

/-! ## Failures -/

structure Failure where
  fault : Fault
  position : Position
  deriving DecidableEq, Repr

def Failure.message (f : Failure) : String :=
  f.fault.message ++ " at " ++ toString f.position.line ++ ":" ++ toString f.position.column

end JsonStream
