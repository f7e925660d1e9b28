import JsonStream.Branch
import JsonStream.Traced

/-!
# Reports

An event is reported on the spot, while the byte that brings it about is still on its way, so what has been
reported would stay even if the byte were refused further on. `Branch.report` goes the same way as
`Branch.advance` and keeps whatever is reported, next to the result.
-/

namespace JsonStream.Branch

/-! ## The rules that report -/

def reportStart (n : Branch) (o : Options) (depth : Nat) (b : UInt8) : Traced Event (Branch × Status) :=
  if o.isSpace b then .quiet (.ok (n, .pending))
  else match Container.openedBy? b with
  | some c =>
    if o.maxDepth ≤ depth then .quiet (.error (.depthExceeded o.maxDepth))
    else ⟨[.opened c depth], .ok (n.begin (.container c) c.within, .pending)⟩
  | none => .quiet (n.feedStart o depth b)

def reportString (n : Branch) (o : Options) (b : UInt8) : Traced Event (Branch × Status) :=
  if b = Byte.quote then ⟨[.string n.token.size], .ok ({ n with text := some n.token.toList }.complete, .complete)⟩
  else .quiet (n.feedString o b)

def reportClosing (n : Branch) (c : Container) : Traced Event (Branch × Status) :=
  ⟨[.closed c n.children.length], .ok (n.complete, .complete)⟩

def reportAfterChild (n : Branch) (c : Container) (o : Options) (b : UInt8) : Traced Event (Branch × Status) :=
  if o.isSpace b then .quiet (.ok (n, .pending))
  else if b = Byte.comma then .quiet (.ok ({ n with stage := some c.within }, .pending))
  else if b = c.closing then n.reportClosing c
  else .quiet (n.feedAfterChild c o b)

def reportAfterName (n : Branch) (result : Branch × Status) : Traced Event (Branch × Status) :=
  match result with
  | (child, .pending) => .quiet (.ok ({ n with active := some child }, .pending))
  | (child, .complete) =>
    ⟨[.member (child.promote.name.getD [])], .ok ({ n with active := some child.promote, stage := some .nameEnd },
      .pending)⟩

def reportAfterValue (n : Branch) (c : Container) (o : Options) (b : UInt8) (result : Branch × Status) :
    Traced Event (Branch × Status) :=
  match result with
  | (child, .pending) => .quiet (.ok ({ n with active := some child }, .pending))
  | (child, .complete) =>
    if child.kind = some .number then (n.closeChild child c.afterChild).reportAfterChild c o b
    else .quiet (.ok (n.closeChild child c.afterChild, .pending))

def reportName (n : Branch) (o : Options) (depth : Nat) (b : UInt8) : Traced Event (Branch × Status) :=
  if o.isSpace b then .quiet (.ok (n, .pending))
  else if b = Byte.quote then
    (fresh.reportStart o (depth + 1) b).bind fun result => .quiet (.ok ({ n with active := some result.1 }, .pending))
  else if b = Byte.closeBrace ∧ n.children.isEmpty then n.reportClosing .object
  else .quiet (n.feedName o depth b)

def reportElement (n : Branch) (o : Options) (depth : Nat) (b : UInt8) : Traced Event (Branch × Status) :=
  if o.isSpace b then .quiet (.ok (n, .pending))
  else if b = Byte.closeBracket ∧ n.children.isEmpty then n.reportClosing .array
  else if b = Byte.closeBrace then .quiet (.error (.mismatchedTerminator Byte.closeBracket b))
  else (fresh.reportStart o (depth + 1) b).bind (n.reportAfterValue .array o b)

def reportMember (n : Branch) (o : Options) (depth : Nat) (b : UInt8) : Traced Event (Branch × Status) :=
  if o.isSpace b then .quiet (.ok (n, .pending))
  else (fresh.reportStart o (depth + 1) b).bind (n.reportAfterValue .object o b)

/-! ## Any byte -/

/-- A byte for a value inside `depth` containers, with what is reported. -/
def report (o : Options) (b : UInt8) : Nat → Branch → Traced Event (Branch × Status)
  | depth, ⟨kind, number, text, name, children, stage, token, active⟩ =>
    let n : Branch := ⟨kind, number, text, name, children, stage, token, active⟩
    match stage with
    | some .start => n.reportStart o depth b
    | some (.keyword word) => .quiet (n.feedKeyword word b)
    | some .number => .quiet (n.feedNumber o b)
    | some .string => n.reportString o b
    | some .escape => .quiet (n.feedEscape o b)
    | some .element =>
      match active with
      | some child => (child.report o b (depth + 1)).bind (n.reportAfterValue .array o b)
      | none => n.reportElement o depth b
    | some .elementEnd => n.reportAfterChild .array o b
    | some .name =>
      match active with
      | some child => (child.report o b (depth + 1)).bind n.reportAfterName
      | none => n.reportName o depth b
    | some .nameEnd => .quiet (n.feedNameEnd o b)
    | some .member =>
      match active with
      | some child => (child.report o b (depth + 1)).bind (n.reportAfterValue .object o b)
      | none => n.reportMember o depth b
    | some .memberEnd => n.reportAfterChild .object o b
    | none => .quiet (n.feedDone o b)

def reportFeed (o : Options) (n : Branch) (b : UInt8) : Traced Event (Branch × Status) :=
  (n.report o b 0).bind fun result =>
    if result.2 = .complete ∧ n.isComplete = false ∧ result.1.kind = some .number then
      result.1.report o b 0
    else .quiet (.ok result)

end JsonStream.Branch
