import JsonStream.Decimal.Nearest
import JsonStream.Decimal.Spelling
import JsonStream.Escape
import JsonStream.Options
import JsonStream.Value

/-!
# Grammar

Documents as derivations. `Grammar.Spells o depth s v` says that the bytes `s`, inside `depth` containers and
under the limits of `o`, spell the value `v` from its first byte to its last; `Grammar.Document o s v`
allows white space around it. Nothing here mentions the order in which bytes arrive.
-/

namespace JsonStream.Grammar

/-! ## Tokens -/

def Blank (o : Options) (s : Bytes) : Prop :=
  ∀ b ∈ s, o.isSpace b = true

def Fits (o : Options) (length : Nat) : Prop :=
  ∀ limit, o.maxTokenLength = some limit → length ≤ limit

/-- What stands between the quotes of a string, and the text it stands for. -/
inductive Content : Bytes → Bytes → Prop
  | nil : Content [] []
  | plain {b : UInt8} {s text : Bytes} (not_quote : b ≠ Byte.quote) (not_backslash : b ≠ Byte.backslash)
    (rest : Content s text) : Content (b :: s) (b :: text)
  | escape {b c : UInt8} {s text : Bytes} (escape : Escape.decode? b = some c) (rest : Content s text) :
    Content (Byte.backslash :: b :: s) (c :: text)

inductive Quoted (o : Options) : Bytes → Bytes → Prop
  | intro {s text : Bytes} (content : Content s text) (fits : Fits o text.length) :
    Quoted o (Byte.quote :: s ++ [Byte.quote]) text

/-- A number and its value, the nearest to what the numeral says. It begins with a digit or a minus sign, so
a point may come first only after the sign. -/
structure Number (o : Options) (s : Bytes) (x : Binary64) : Prop where
  first : ∃ b rest, s = b :: rest ∧ Byte.startsNumber b = true
  numeral : ∃ d, Decimal.Numeral s d ∧ d.RoundsTo x
  fits : Fits o s.length

/-! ## Values -/

mutual

/-- Bytes that spell a value inside `depth` containers. -/
inductive Spells (o : Options) : Nat → Bytes → Value → Prop
  | keyword {depth : Nat} (word : Keyword) : Spells o depth word.spelling word.value
  | number {depth : Nat} {s : Bytes} {x : Binary64} (number : Number o s x) : Spells o depth s (.number x)
  | string {depth : Nat} {s text : Bytes} (quoted : Quoted o s text) : Spells o depth s (.string text)
  | emptyArray {depth : Nat} {s : Bytes} (room : depth < o.maxDepth) (blank : Blank o s) :
    Spells o depth (Byte.openBracket :: s ++ [Byte.closeBracket]) (.array [])
  | array {depth : Nat} {s : Bytes} {items : List Value} (room : depth < o.maxDepth)
    (elements : Elements o (depth + 1) s items) :
    Spells o depth (Byte.openBracket :: s ++ [Byte.closeBracket]) (.array items)
  | emptyObject {depth : Nat} {s : Bytes} (room : depth < o.maxDepth) (blank : Blank o s) :
    Spells o depth (Byte.openBrace :: s ++ [Byte.closeBrace]) (.object [])
  | object {depth : Nat} {s : Bytes} {members : List (Bytes × Value)} (room : depth < o.maxDepth)
    (inside : Members o (depth + 1) s members) :
    Spells o depth (Byte.openBrace :: s ++ [Byte.closeBrace]) (.object members)

/-- One element or more, with commas between them and white space around each. -/
inductive Elements (o : Options) : Nat → Bytes → List Value → Prop
  | one {depth : Nat} {a s b : Bytes} {v : Value} (before : Blank o a) (value : Spells o depth s v)
    (after : Blank o b) : Elements o depth (a ++ s ++ b) [v]
  | more {depth : Nat} {a s b rest : Bytes} {v : Value} {items : List Value} (before : Blank o a)
    (value : Spells o depth s v) (after : Blank o b) (others : Elements o depth rest items) :
    Elements o depth (a ++ s ++ b ++ Byte.comma :: rest) (v :: items)

inductive Members (o : Options) : Nat → Bytes → List (Bytes × Value) → Prop
  | one {depth : Nat} {a k b c s d : Bytes} {name : Bytes} {v : Value} (before : Blank o a)
    (quoted : Quoted o k name) (beforeColon : Blank o b) (afterColon : Blank o c)
    (value : Spells o depth s v) (after : Blank o d) :
    Members o depth (a ++ k ++ b ++ Byte.colon :: (c ++ s ++ d)) [(name, v)]
  | more {depth : Nat} {a k b c s d rest : Bytes} {name : Bytes} {v : Value}
    {members : List (Bytes × Value)} (before : Blank o a) (quoted : Quoted o k name)
    (beforeColon : Blank o b) (afterColon : Blank o c) (value : Spells o depth s v) (after : Blank o d)
    (others : Members o depth rest members) :
    Members o depth (a ++ k ++ b ++ Byte.colon :: (c ++ s ++ d ++ Byte.comma :: rest))
      ((name, v) :: members)

end

/-- A document: a value with white space around it. -/
def Document (o : Options) (s : Bytes) (v : Value) : Prop :=
  ∃ before value after, s = before ++ value ++ after ∧ Blank o before ∧ Spells o 0 value v ∧ Blank o after

end JsonStream.Grammar
