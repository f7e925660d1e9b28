import JsonStream.Branch.Calls

/-!
# The recursion behind a byte

`Branch.advance` goes by the form of the value, and where a number ends it has the rule for what follows written
out. Here each rule is said by the calls that it makes. It calls for a child, and a container in which a number
has ended calls for *itself*, with the same byte; so the form of the values alone does not show that calls come to
an end.

A `Rule` is done, or makes a call and goes on with the answer. `Request.Follows` relates a call to all calls that its
rule makes under any answers. `Request.perform` makes the calls, no more than so many of them inside one another,
and keeps an entry for each.
-/

namespace JsonStream.Branch

/-! ## Rules -/

/-- What a call is for: the child in progress or the document, a child that begins with the byte, or once more a
value in which a number has ended, or which is such a number. -/
inductive Reason
  | current
  | begun
  | again
  deriving DecidableEq, Repr

/-- A call that is to be made. Its address and its nesting are counted from the value that calls. -/
structure Request extends Call where
  reason : Reason

inductive Rule
  | done (outcome : Except Fault (Branch × Status))
  | call (request : Request) (next : Branch × Status → Rule)

def Request.child (n : Branch) (reason : Reason) (child : Branch) (depth : Nat) : Request where
  path := [n.children.length]
  depth := depth + 1
  nesting := 1
  value := child
  reason := reason

def Request.itself (n : Branch) (depth : Nat) : Request where
  depth := depth
  nesting := 1
  value := n
  reason := .again

def Request.document (n : Branch) (reason : Reason) : Request where
  depth := 0
  value := n
  reason := reason

def afterValueRule (n : Branch) (c : Container) (depth : Nat) : Branch × Status → Rule
  | (child, .pending) => .done (.ok ({ n with active := some child }, .pending))
  | (child, .complete) =>
    let closed := n.closeChild child c.afterChild
    if child.kind = some .number then .call (.itself closed depth) fun result => .done (.ok result)
    else .done (.ok (closed, .pending))

/-- A byte where a child of a container is to come or has come in part. -/
def valueRule (n : Branch) (c : Container) (o : Options) (b : UInt8) (depth : Nat) : Rule :=
  match n.active with
  | some child => .call (.child n .current child depth) (n.afterValueRule c depth)
  | none =>
    if o.isSpace b then .done (.ok (n, .pending))
    else if c = .array ∧ b = Byte.closeBracket ∧ n.children.isEmpty then .done (.ok (n.complete, .complete))
    else if c = .array ∧ b = Byte.closeBrace then .done (.error (.mismatchedTerminator Byte.closeBracket b))
    else .call (.child n .begun fresh depth) (n.afterValueRule c depth)

def nameRule (n : Branch) (o : Options) (b : UInt8) (depth : Nat) : Rule :=
  match n.active with
  | some child => .call (.child n .current child depth) fun result => .done (.ok (n.afterName result))
  | none =>
    if o.isSpace b then .done (.ok (n, .pending))
    else if b = Byte.quote then
      .call (.child n .begun fresh depth) fun result => .done (.ok ({ n with active := some result.1 }, .pending))
    else if b = Byte.closeBrace ∧ n.children.isEmpty then .done (.ok (n.complete, .complete))
    else if b = Byte.closeBracket then .done (.error (.mismatchedTerminator Byte.closeBrace b))
    else .done (.error (.unexpectedByte b))

def rule (n : Branch) (o : Options) (b : UInt8) (depth : Nat) : Rule :=
  match n.stage with
  | some .start => .done (n.feedStart o depth b)
  | some (.keyword word) => .done (n.feedKeyword word b)
  | some .number => .done (n.feedNumber o b)
  | some .string => .done (n.feedString o b)
  | some .escape => .done (n.feedEscape o b)
  | some .element => n.valueRule .array o b depth
  | some .elementEnd => .done (n.feedAfterChild .array o b)
  | some .name => n.nameRule o b depth
  | some .nameEnd => .done (n.feedNameEnd o b)
  | some .member => n.valueRule .object o b depth
  | some .memberEnd => .done (n.feedAfterChild .object o b)
  | none => .done (n.feedDone o b)

/-- A byte for a whole document, which is called once more if it is a number that has ended with the byte. -/
def documentRule (n : Branch) : Rule :=
  .call (.document n .current) fun result =>
    if result.2 = .complete ∧ n.isComplete = false ∧ result.1.kind = some .number then
      .call (.document result.1 .again) fun last => .done (.ok last)
    else .done (.ok result)

/-! ## Calls of calls -/

/-- A rule makes a call, if earlier ones are answered in some way. -/
inductive Rule.Calls : Rule → Request → Prop
  | now {request : Request} {next : Branch × Status → Rule} : Calls (.call request next) request
  | later {request other : Request} {next : Branch × Status → Rule} (answer : Branch × Status)
    (calls : Calls (next answer) other) : Calls (.call request next) other

/-- The rule of the second call makes the first, if earlier ones are answered in some way. -/
def Request.Follows (o : Options) (b : UInt8) (inner outer : Request) : Prop :=
  (outer.value.rule o b outer.depth).Calls inner

inductive ForChild (n : Branch) (depth : Nat) : Request → Prop
  | current {child : Branch} (active : n.active = some child) : ForChild n depth (.child n .current child depth)
  | begun (idle : n.active = none) : ForChild n depth (.child n .begun fresh depth)

/-- What a rule does once a call for a child is answered. At most it calls for the value itself, to which a number
that has ended has just been added; the value is then at a stage where it makes no call. -/
inductive Resumes (n : Branch) (o : Options) (b : UInt8) (depth : Nat) : Branch × Status → Rule → Prop
  | done {answer : Branch × Status} (outcome : Except Fault (Branch × Status)) :
    Resumes n o b depth answer (.done outcome)
  | again {number closed : Branch} {stage : Stage} (kind : number.kind = some .number)
    (closed_eq : closed = n.closeChild number stage) (settled : stage = .elementEnd ∨ stage = .memberEnd)
    (alone : ∃ outcome, closed.rule o b depth = .done outcome) :
    Resumes n o b depth (number, .complete) (.call (.itself closed depth) fun result => .done (.ok result))

/-- A rule makes no call, or one for a child and after that at most one for the value itself. -/
inductive Orderly (n : Branch) (o : Options) (b : UInt8) (depth : Nat) : Rule → Prop
  | done (outcome : Except Fault (Branch × Status)) : Orderly n o b depth (.done outcome)
  | call {request : Request} {next : Branch × Status → Rule} (target : n.ForChild depth request)
    (after : ∀ answer, n.Resumes o b depth answer (next answer)) : Orderly n o b depth (.call request next)

/-! ## Calls made -/

structure Entry extends Request where
  outcome : Except Fault (Branch × Status)

structure Logged where
  entries : List Entry
  outcome : Except Fault (Branch × Status)

/-- The entry of a call, counted from where another call is counted from that it is made in. -/
def Entry.inside (outer : Request) (e : Entry) : Entry :=
  { e with path := outer.path ++ e.path, nesting := outer.nesting + e.nesting }

/-- Carries out a rule, with calls answered as given. There need not be an answer. -/
def Rule.perform (answer : Request → Option Logged) : Rule → Option Logged
  | .done outcome => some ⟨[], outcome⟩
  | .call request next =>
    (answer request).bind fun called =>
      match called.outcome with
      | .error fault => some ⟨called.entries, .error fault⟩
      | .ok result =>
        ((next result).perform answer).map fun rest => ⟨called.entries ++ rest.entries, rest.outcome⟩

/-- Makes a call and all those in it, if no more than `frames` of them are ever going on at once. -/
def Request.perform (o : Options) (b : UInt8) : Nat → Request → Option Logged
  | 0, _ => none
  | frames + 1, request =>
    ((request.value.rule o b request.depth).perform (perform o b frames)).map fun inner =>
      ⟨⟨request, inner.outcome⟩ :: inner.entries.map (Entry.inside request), inner.outcome⟩

def performFeed (o : Options) (n : Branch) (b : UInt8) (frames : Nat) : Option Logged :=
  n.documentRule.perform (Request.perform o b frames)

/-- The value that was called is a container, and the byte has been its last or comes after it. -/
def Entry.Closes (e : Entry) : Prop :=
  ∃ m c, e.outcome = .ok (m, .complete) ∧ m.container? = some c

/-- What is said of the calls that one byte leads to. -/
structure ReplayedOnce (entries : List Entry) : Prop where
  -- Of two calls of one value the second is for the value again.
  apart : entries.Pairwise fun e later => e.path = later.path → later.reason = .again
  once : entries.countP (fun e => e.reason = .again) ≤ 1
  -- If a container closes, no other value than itself is called again, so not the container around it.
  closing : ∀ e ∈ entries, e.Closes → ∀ replay ∈ entries, replay.reason = .again → replay.path = e.path
  beginning : ∀ e ∈ entries, e.reason = .begun → ∀ replay ∈ entries, replay.reason ≠ .again

end JsonStream.Branch
