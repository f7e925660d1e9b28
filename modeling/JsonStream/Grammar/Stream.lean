import JsonStream.Grammar
import JsonStream.Session

/-!
# Where documents end

A number can go on as long as nothing but digits has come, while every other value ends with its last byte.
This module says which bytes are a document whose end is known, at which byte it becomes known, and how
documents may follow one another in a stream.
-/

namespace JsonStream

/-- A document whose end is known: any white space may come after the value, and some has to after a
number. -/
def Grammar.Ended (o : Options) (s : Bytes) (v : Value) : Prop :=
  ∃ before value after, s = before ++ value ++ after ∧ Blank o before ∧ Spells o 0 value v ∧ Blank o after ∧
    (v.kind = .number → after ≠ [])

/-- A session comes to the end of the value with the last of the bytes, and with none before. -/
structure Session.EndsFirst (o : Options) (bytes : Bytes) (v : Value) : Prop where
  ends : ∃ s, (start o).feedAll bytes = .ok s ∧ s.tree = some (.settled (.document v))
  first : ∀ before rest, bytes = before ++ rest → rest ≠ [] →
    ∃ s, (start o).feedAll before = .ok s ∧ s.isComplete = false

structure Segment where
  text : Bytes
  value : Value
  gap : Bytes

namespace Segment

def bytes (e : Segment) : Bytes :=
  e.text ++ e.gap

/-- The text alone is decoded to the value, and a number is apart from what follows. -/
structure Accepted (o : Options) (e : Segment) : Prop where
  decodes : (Session.start o).decode e.text = .ok e.value
  blank : Grammar.Blank o e.gap
  apart : e.value.kind = .number → e.gap ≠ []

end Segment

end JsonStream
