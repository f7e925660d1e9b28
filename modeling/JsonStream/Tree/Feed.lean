import JsonStream.Escape
import JsonStream.Event
import JsonStream.Options
import JsonStream.Tree.Basic
import JsonStream.Decimal.Basic

/-!
# Feeding a tree

One byte takes a tree to the next, or is refused with a fault. Every rule looks at the place the last byte
left off, and at the frames only to count them or to put an ended value into the innermost.

A number has no last byte of its own: the byte after it ends it. Such a byte is not used up, and the place
where the number ended has it in turn. That happens at most once for a byte, since a settled place takes
every byte or refuses it.
-/

namespace JsonStream

/-- A tree after a byte, with the events the byte brought about. -/
abbrev Taken := Tree × List Event

/-- What becomes of a byte that is not refused. It is used up, or it has ended a number without being part of it
and is passed on. -/
inductive Reaction
  | taken (result : Taken)
  | passed (place : Settled)
  deriving DecidableEq, Repr

/-! ## After a value -/

def closeArray (outer : List Frame) (items : Array Value) : Taken :=
  (.settled (.of outer (.array items.toList)), [.closed .array items.size])

def closeObject (outer : List Frame) (members : Array (Bytes × Value)) : Taken :=
  (.settled (.of outer (.object members.toList)), [.closed .object members.size])

/-- A byte where a value has just ended. -/
def Settled.feed (o : Options) (s : Settled) (b : UInt8) : Except Fault Taken :=
  if o.isSpace b then .ok (.settled s, [])
  else match s with
  | .document _ => .error (.unexpectedByte b)
  | .element outer items =>
    if b = Byte.comma then .ok (.live outer (.element items), [])
    else if b = Byte.closeBracket then .ok (closeArray outer items)
    else if b = Byte.closeBrace then .error (.mismatchedTerminator Byte.closeBracket b)
    else .error (.unexpectedByte b)
  | .member outer members =>
    if b = Byte.comma then .ok (.live outer (.name members), [])
    else if b = Byte.closeBrace then .ok (closeObject outer members)
    else if b = Byte.closeBracket then .error (.mismatchedTerminator Byte.closeBrace b)
    else .error (.unexpectedByte b)

/-! ## Before and inside a value -/

/-- A value begins. The frames are those around it, and their number is its depth. -/
def beginValue (o : Options) (outer : List Frame) (b : UInt8) : Except Fault Taken :=
  match Container.openedBy? b with
  | some c =>
    if o.maxDepth ≤ outer.length then .error (.depthExceeded o.maxDepth)
    else .ok (.live outer (.inside c), [.opened c outer.length])
  | none =>
    if b = Byte.quote then .ok (.live outer (.string .value #[]), [])
    else if Byte.startsNumber b then do
      let literal ← o.extend #[] b
      .ok (.live outer (.number literal), [])
    else match Keyword.startingWith? b with
      | some w => .ok (.live outer (.keyword w 1), [])
      | none => .error (.unexpectedByte b)

/-- A byte where an element is to come. An array may close only if it has no element yet, for after a
comma one must follow. -/
def feedElement (o : Options) (outer : List Frame) (items : Array Value) (b : UInt8) :
    Except Fault Taken :=
  if o.isSpace b then .ok (.live outer (.element items), [])
  else if b = Byte.closeBracket ∧ items.isEmpty then .ok (closeArray outer items)
  else if b = Byte.closeBrace then .error (.mismatchedTerminator Byte.closeBracket b)
  else beginValue o (.array items :: outer) b

def feedName (o : Options) (outer : List Frame) (members : Array (Bytes × Value)) (b : UInt8) :
    Except Fault Taken :=
  if o.isSpace b then .ok (.live outer (.name members), [])
  else if b = Byte.quote then .ok (.live outer (.string (.name members) #[]), [])
  else if b = Byte.closeBrace ∧ members.isEmpty then .ok (closeObject outer members)
  else if b = Byte.closeBracket then .error (.mismatchedTerminator Byte.closeBrace b)
  else .error (.unexpectedByte b)

def feedColon (o : Options) (outer : List Frame) (members : Array (Bytes × Value)) (name : Bytes)
    (b : UInt8) : Except Fault Taken :=
  if o.isSpace b then .ok (.live outer (.colon members name), [])
  else if b = Byte.colon then .ok (.live (.object members name :: outer) .blank, [])
  else .error (.unexpectedByte b)

def endString (outer : List Frame) (text : Array UInt8) : Role → Taken
  | .value => (.settled (.of outer (.string text.toList)), [.string text.size])
  | .name members =>
    (.live outer (.colon members text.toList), [.string text.size, .member text.toList])

def feedString (o : Options) (outer : List Frame) (role : Role) (text : Array UInt8) (b : UInt8) :
    Except Fault Taken :=
  if b = Byte.quote then .ok (endString outer text role)
  else if b = Byte.backslash then .ok (.live outer (.escape role text), [])
  else do
    let text ← o.extend text b
    .ok (.live outer (.string role text), [])

/-- A byte after a backslash. An unknown escape is found before the string is found too long. -/
def feedEscape (o : Options) (outer : List Frame) (role : Role) (text : Array UInt8) (b : UInt8) :
    Except Fault Taken :=
  match Escape.decode? b with
  | none => .error (.invalidEscape b)
  | some decoded => do
    let text ← o.extend text decoded
    .ok (.live outer (.string role text), [])

def feedKeyword (outer : List Frame) (word : Keyword) (seen : Nat) (b : UInt8) :
    Except Fault Taken :=
  if word.spelling[seen]? = some b then
    if seen + 1 = word.spelling.length then .ok (.settled (.of outer word.value), [])
    else .ok (.live outer (.keyword word (seen + 1)), [])
  else .error (.keywordMismatch word)

def numberOf (literal : Array UInt8) : Except Fault Value :=
  match Binary64.read? literal.toList with
  | some x => .ok (.number x)
  | none => .error (.invalidNumber literal.toList)

def feedNumber (o : Options) (outer : List Frame) (literal : Array UInt8) (b : UInt8) :
    Except Fault Reaction :=
  if Byte.inNumber b then do
    let literal ← o.extend literal b
    .ok (.taken (.live outer (.number literal), []))
  else if o.isSpace b || Byte.followsNumber b then do
    let v ← numberOf literal
    .ok (.passed (.of outer v))
  else .error (.unexpectedByte b)

/-! ## Any place -/

/-- A byte at the place the last one left off. -/
def Tree.offer (o : Options) (t : Tree) (b : UInt8) : Except Fault Reaction :=
  match t with
  | .settled s => (s.feed o b).map .taken
  | .live outer focus =>
    match focus with
    | .blank =>
      if o.isSpace b then .ok (.taken (.live outer .blank, []))
      else (beginValue o outer b).map .taken
    | .keyword word seen => (feedKeyword outer word seen b).map .taken
    | .number literal => feedNumber o outer literal b
    | .string role text => (feedString o outer role text b).map .taken
    | .escape role text => (feedEscape o outer role text b).map .taken
    | .element items => (feedElement o outer items b).map .taken
    | .name members => (feedName o outer members b).map .taken
    | .colon members name => (feedColon o outer members name b).map .taken

/-- One byte, with the place where a number ended having its end in turn. -/
def Tree.feed (o : Options) (t : Tree) (b : UInt8) : Except Fault Taken := do
  match ← t.offer o b with
  | .taken result => .ok result
  | .passed place => place.feed o b

/-- No more bytes come. Only a number that is the whole document is ended by that. -/
def Tree.finish : Tree → Except Fault Value
  | .settled (.document v) => .ok v
  | .live [] (.number literal) => numberOf literal
  | _ => .error .unexpectedEnd

end JsonStream
