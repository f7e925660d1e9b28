import JsonStream.Session
import JsonStream.Tree.View

/-!
# Trees from the outside in

The same decoding as by `Tree.feed`, with the state laid out the other way round. A `Branch` is a value
with what it waits for and, inside it, the child in progress; a byte is handed from each container to
its child until one can use it, and on the way back each container looks at what became of its child.

A child that has ended is added to the children. The name of a member is a child too: once it has ended,
the same child starts over as the member's value. A child that is a number ends at a byte that is not its
own, and its container has that byte in turn.

`Tree.branch` is a tree in this form, and `Branch.feed` takes it to what `Tree.feed` takes the tree to.
-/

namespace JsonStream

/-- A value in progress or complete, with all that is remembered of it. It waits for `stage`, or for nothing
once it has ended; `token` is what has come so far of a string, a number or a keyword, and `active` is the
child in progress. -/
structure Branch where
  kind : Option Kind := none
  number : Binary64 := .zero false
  text : Option Bytes := none
  name : Option Bytes := none
  children : List Branch := []
  stage : Option Stage := some .start
  token : Array UInt8 := #[]
  active : Option Branch := none

/-! ## Places inside containers -/

namespace Container

def within : Container → Stage
  | array => .element
  | object => .name

def afterChild : Container → Stage
  | array => .elementEnd
  | object => .memberEnd

def other : Container → Container
  | array => object
  | object => array

end Container

namespace Branch

/-! ## Views -/

def fresh : Branch :=
  {}

def isComplete (n : Branch) : Bool :=
  n.stage.isNone

def number? (n : Branch) : Option Binary64 :=
  if n.kind = some .number ∧ n.isComplete = true then some n.number else none

/-- The text of a string. That the string is complete is not asked. -/
def text? (n : Branch) : Option Bytes :=
  match n.kind with
  | some .string => n.text
  | _ => none

def bool? (n : Branch) : Option Bool :=
  match n.kind with
  | some (.keyword (.bool b)) => if n.isComplete then some b else none
  | _ => none

def isNull (n : Branch) : Bool :=
  decide (n.kind = some (.keyword .null)) && n.isComplete

/-! ## Changes -/

def begin (n : Branch) (kind : Kind) (stage : Stage) : Branch :=
  { n with kind := some kind, stage := some stage }

def complete (n : Branch) : Branch :=
  { n with stage := none, token := #[], active := none }

/-- A name that has ended starts over as the value of the member that it names. -/
def promote (n : Branch) : Branch :=
  { n with name := n.text, text := none, kind := none, stage := some .start }

def closeChild (n child : Branch) (stage : Stage) : Branch :=
  { n with children := n.children ++ [child], active := none, stage := some stage }

/-! ## A byte for the value itself -/

def feedStart (n : Branch) (o : Options) (depth : Nat) (b : UInt8) : Except Fault (Branch × Status) :=
  if o.isSpace b then .ok (n, .pending)
  else match Container.openedBy? b with
  | some c =>
    if o.maxDepth ≤ depth then .error (.depthExceeded o.maxDepth)
    else .ok (n.begin (.container c) c.within, .pending)
  | none =>
    if b = Byte.quote then .ok (n.begin .string .string, .pending)
    else if Byte.startsNumber b then
      (o.extend n.token b).map fun token => ({ n.begin .number .number with token }, .pending)
    else match Keyword.startingWith? b with
      | some w => .ok ({ n.begin (.keyword w) (.keyword w) with token := n.token.push b }, .pending)
      | none => .error (.unexpectedByte b)

def feedString (n : Branch) (o : Options) (b : UInt8) : Except Fault (Branch × Status) :=
  if b = Byte.quote then .ok ({ n with text := some n.token.toList }.complete, .complete)
  else if b = Byte.backslash then .ok ({ n with stage := some .escape }, .pending)
  else (o.extend n.token b).map fun token => ({ n with token }, .pending)

def feedEscape (n : Branch) (o : Options) (b : UInt8) : Except Fault (Branch × Status) :=
  match Escape.decode? b with
  | none => .error (.invalidEscape b)
  | some decoded =>
    (o.extend n.token decoded).map fun token => ({ n with token, stage := some .string }, .pending)

/-- A byte inside a number, or the byte after it. -/
def feedNumber (n : Branch) (o : Options) (b : UInt8) : Except Fault (Branch × Status) :=
  if Byte.inNumber b then (o.extend n.token b).map fun token => ({ n with token }, .pending)
  else if o.isSpace b || Byte.followsNumber b then
    match Binary64.read? n.token.toList with
    | some number => .ok ({ n with number }.complete, .complete)
    | none => .error (.invalidNumber n.token.toList)
  else .error (.unexpectedByte b)

/-- A byte inside a keyword, all bytes of which are compared again. -/
def feedKeyword (n : Branch) (word : Keyword) (b : UInt8) : Except Fault (Branch × Status) :=
  let token := n.token.push b
  if token.toList <+: word.spelling then
    if token.size = word.spelling.length then .ok (n.complete, .complete)
    else .ok ({ n with token }, .pending)
  else .error (.keywordMismatch word)

def feedNameEnd (n : Branch) (o : Options) (b : UInt8) : Except Fault (Branch × Status) :=
  if o.isSpace b then .ok (n, .pending)
  else if b = Byte.colon then .ok ({ n with stage := some .member }, .pending)
  else .error (.unexpectedByte b)

def feedAfterChild (n : Branch) (c : Container) (o : Options) (b : UInt8) : Except Fault (Branch × Status) :=
  if o.isSpace b then .ok (n, .pending)
  else if b = Byte.comma then .ok ({ n with stage := some c.within }, .pending)
  else if b = c.closing then .ok (n.complete, .complete)
  else if b = c.other.closing then .error (.mismatchedTerminator c.closing b)
  else .error (.unexpectedByte b)

def feedDone (n : Branch) (o : Options) (b : UInt8) : Except Fault (Branch × Status) :=
  if o.isSpace b then .ok (n, .complete) else .error (.unexpectedByte b)

/-! ## A byte for a child -/

/-- What an object does with a child that is a name, after a byte for the child. -/
def afterName (n : Branch) (result : Branch × Status) : Branch × Status :=
  match result with
  | (child, .pending) => ({ n with active := some child }, .pending)
  | (child, .complete) => ({ n with active := some child.promote, stage := some .nameEnd }, .pending)

/-- What a container does with a child that is a value, after a byte for the child. The byte that ended a
number comes after it. -/
def afterValue (n : Branch) (c : Container) (o : Options) (b : UInt8) (result : Branch × Status) :
    Except Fault (Branch × Status) :=
  match result with
  | (child, .pending) => .ok ({ n with active := some child }, .pending)
  | (child, .complete) =>
    if child.kind = some .number then (n.closeChild child c.afterChild).feedAfterChild c o b
    else .ok (n.closeChild child c.afterChild, .pending)

def feedName (n : Branch) (o : Options) (depth : Nat) (b : UInt8) : Except Fault (Branch × Status) :=
  if o.isSpace b then .ok (n, .pending)
  else if b = Byte.quote then
    (fresh.feedStart o (depth + 1) b).map fun result => ({ n with active := some result.1 }, .pending)
  else if b = Byte.closeBrace ∧ n.children.isEmpty then .ok (n.complete, .complete)
  else if b = Byte.closeBracket then .error (.mismatchedTerminator Byte.closeBrace b)
  else .error (.unexpectedByte b)

def feedElement (n : Branch) (o : Options) (depth : Nat) (b : UInt8) : Except Fault (Branch × Status) :=
  if o.isSpace b then .ok (n, .pending)
  else if b = Byte.closeBracket ∧ n.children.isEmpty then .ok (n.complete, .complete)
  else if b = Byte.closeBrace then .error (.mismatchedTerminator Byte.closeBracket b)
  else (fresh.feedStart o (depth + 1) b).bind (n.afterValue .array o b)

/-- A byte where a member's value is to come and no child is there to take it. -/
def feedMember (n : Branch) (o : Options) (depth : Nat) (b : UInt8) : Except Fault (Branch × Status) :=
  if o.isSpace b then .ok (n, .pending)
  else (fresh.feedStart o (depth + 1) b).bind (n.afterValue .object o b)

/-! ## Any byte -/

/-- A byte for a value inside `depth` containers. -/
def advance (o : Options) (b : UInt8) : Nat → Branch → Except Fault (Branch × Status)
  | depth, ⟨kind, number, text, name, children, stage, token, active⟩ =>
    let n : Branch := ⟨kind, number, text, name, children, stage, token, active⟩
    match stage with
    | some .start => n.feedStart o depth b
    | some (.keyword word) => n.feedKeyword word b
    | some .number => n.feedNumber o b
    | some .string => n.feedString o b
    | some .escape => n.feedEscape o b
    | some .element =>
      match active with
      | some child => (child.advance o b (depth + 1)).bind (n.afterValue .array o b)
      | none => n.feedElement o depth b
    | some .elementEnd => n.feedAfterChild .array o b
    | some .name =>
      match active with
      | some child => (child.advance o b (depth + 1)).map n.afterName
      | none => n.feedName o depth b
    | some .nameEnd => n.feedNameEnd o b
    | some .member =>
      match active with
      | some child => (child.advance o b (depth + 1)).bind (n.afterValue .object o b)
      | none => n.feedMember o depth b
    | some .memberEnd => n.feedAfterChild .object o b
    | none => n.feedDone o b

/-- A byte for a whole document. A number that it ends has no container, so the byte comes after the
document. -/
def feed (o : Options) (n : Branch) (b : UInt8) : Except Fault (Branch × Status) :=
  (n.advance o b 0).bind fun result =>
    if result.2 = .complete ∧ n.isComplete = false ∧ result.1.kind = some .number then
      result.1.advance o b 0
    else .ok result

/-- No more bytes come. Only a number is ended by that. -/
def finish (n : Branch) : Except Fault Branch :=
  match n.stage with
  | none => .ok n
  | some .number =>
    match Binary64.read? n.token.toList with
    | some number => .ok { n with number }.complete
    | none => .error (.invalidNumber n.token.toList)
  | some _ => .error .unexpectedEnd

/-- Feeds bytes, each under its own options, up to the first that is refused. -/
def feedEach : Branch → List (Options × UInt8) → Except Fault Branch
  | n, [] => .ok n
  | n, (o, b) :: rest => (n.feed o b).bind fun result => result.1.feedEach rest

end Branch

/-! ## Trees as branches -/

mutual

/-- A complete value, under a name if it is that of a member. -/
def Value.branch (name : Option Bytes) : Value → Branch
  | .null => { kind := some (.keyword .null), name, stage := none }
  | .bool b => { kind := some (.keyword (.bool b)), name, stage := none }
  | .number x => { kind := some .number, number := x, name, stage := none }
  | .string text => { kind := some .string, text := some text, name, stage := none }
  | .array items => { kind := some (.container .array), name, children := branchItems items, stage := none }
  | .object members =>
    { kind := some (.container .object), name, children := branchMembers members, stage := none }

def Value.branchItems : List Value → List Branch
  | [] => []
  | v :: rest => v.branch none :: branchItems rest

def Value.branchMembers : List (Bytes × Value) → List Branch
  | [] => []
  | (name, v) :: rest => v.branch (some name) :: branchMembers rest

end

namespace Branch

def scalar (name : Option Bytes) (kind : Kind) (stage : Stage) (token : Array UInt8) : Branch :=
  { kind := some kind, name, stage := some stage, token }

def array (name : Option Bytes) (items : Array Value) (stage : Stage) (active : Option Branch) : Branch :=
  { kind := some (.container .array), name, children := Value.branchItems items.toList, stage := some stage,
    active }

def object (name : Option Bytes) (members : Array (Bytes × Value)) (stage : Stage)
    (active : Option Branch) : Branch :=
  { kind := some (.container .object), name, children := Value.branchMembers members.toList,
    stage := some stage, active }

end Branch

/-- The name of the value inside the innermost of some frames. -/
def Frame.nameInside : List Frame → Option Bytes
  | .object _ name :: _ => some name
  | _ => none

/-- An open container with the value in progress inside it. -/
def Frame.around (name : Option Bytes) (child : Branch) : Frame → Branch
  | array items => .array name items .element (some child)
  | object members _ => .object name members .member (some child)

/-- All open containers around the value in progress, which is given. -/
def Frame.plug : List Frame → Branch → Branch
  | [], n => n
  | f :: outer, n => plug outer (f.around (nameInside outer) n)

def Role.branch (name : Option Bytes) (stage : Stage) (text : Array UInt8) : Role → Branch
  | value => .scalar name .string stage text
  | .name members => .object name members .name (some (.scalar none .string stage text))

def Focus.branch (outerName : Option Bytes) : Focus → Branch
  | blank => { name := outerName }
  | keyword w seen => .scalar outerName (.keyword w) (.keyword w) (w.spelling.take seen).toArray
  | number literal => .scalar outerName .number .number literal
  | string role text => role.branch outerName .string text
  | escape role text => role.branch outerName .escape text
  | element items => .array outerName items .element none
  | name members => .object outerName members .name none
  | colon members called => .object outerName members .nameEnd (some { name := some called })

def Settled.branch : Settled → Branch
  | document v => v.branch none
  | element outer items => Frame.plug outer (.array (Frame.nameInside outer) items .elementEnd none)
  | member outer members => Frame.plug outer (.object (Frame.nameInside outer) members .memberEnd none)

/-- The tree from the outside in. -/
def Tree.branch : Tree → Branch
  | settled place => place.branch
  | live outer focus => Frame.plug outer (focus.branch (Frame.nameInside outer))

end JsonStream
