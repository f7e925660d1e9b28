import JsonStream.Binary64.Shortest
import JsonStream.Decimal.Layout
import JsonStream.Escape
import JsonStream.Utf8
import JsonStream.Value

/-!
# JSON text

A value written as JSON on one line without spaces. What is left to choose is a `Dialect`: which characters
of strings are escaped, and how numbers look.

The `plain` dialect can be decoded again: its strings hold no escape that the decoder lacks. The
`exchange` dialect is for readers of standard JSON, which admit no control characters inside strings.
-/

namespace JsonStream.Text

/-! ## Dialects -/

/-- The choices JSON leaves to a writer: how a character stands inside a string, how numbers are laid out, and
which of two equally near shortest decimals is written. -/
structure Dialect where
  char : Char → List Char
  layout : Decimal.Layout
  tie : Tie

/-- A character with an escape of its own, escaped; any other as `other` has it. -/
def escaped (other : Char → List Char) (c : Char) : List Char :=
  match Escape.letter? c with
  | some letter => ['\\', letter]
  | none => other c

def controlByNumber (c : Char) : List Char :=
  if c.toNat < 0x20 then '\\' :: 'u' :: '0' :: '0' :: Byte.hex c.toNat.toUInt8 else [c]

/-- Control characters without an escape of their own stand for themselves, and no number has an
exponent. -/
def Dialect.plain : Dialect where
  char := escaped fun c => [c]
  layout := { positional := none, pointZero := false, plusSign := false }
  tie := .up

/-- Every control character is escaped, and numbers from 10¹⁶ on and below 10⁻⁵ have an exponent. -/
def Dialect.exchange : Dialect where
  char := escaped controlByNumber
  layout := { positional := some (-5, 16), pointZero := true, plusSign := true }
  tie := .even

namespace Dialect

def number (d : Dialect) (x : Binary64) : List Char :=
  (x.shortest d.tie).render d.layout

/-- A string, read as UTF-8 with a replacement character for each ill-formed piece. -/
def string (d : Dialect) (text : Bytes) : List Char :=
  '"' :: (Utf8.lossy text).flatMap d.char ++ ['"']

/-! ## Values -/

mutual

def write (d : Dialect) : Value → List Char
  | .null => ['n', 'u', 'l', 'l']
  | .bool true => ['t', 'r', 'u', 'e']
  | .bool false => ['f', 'a', 'l', 's', 'e']
  | .number x => d.number x
  | .string text => d.string text
  | .array items => '[' :: d.writeItems [] items ++ [']']
  | .object members => '\x7b' :: d.writeMembers [] members ++ ['\x7d']

/-- Elements, the first after `lead` and the others after a comma. -/
def writeItems (d : Dialect) (lead : List Char) : List Value → List Char
  | [] => []
  | v :: rest => lead ++ d.write v ++ d.writeItems [','] rest

def writeMembers (d : Dialect) (lead : List Char) : List (Bytes × Value) → List Char
  | [] => []
  | (name, v) :: rest =>
    lead ++ d.string name ++ ':' :: d.write v ++ d.writeMembers [','] rest

end

end Dialect

end JsonStream.Text
