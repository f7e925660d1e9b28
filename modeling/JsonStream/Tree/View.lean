import JsonStream.Tree.Basic
import JsonStream.Utf8

/-!
# What a tree shows

A tree in progress can be looked at between any two bytes. What it shows of itself is its `Outline`: the
kind of the whole value as soon as that is known, the payload as far as it is finished, and the children
that have ended. A child that is still in progress does not show. The `Stage` names what the outermost
unfinished value waits for.

Two complete values can be read off any tree. `Tree.visible` puts null for what is not finished, and
`Tree.filled` puts the value that the kind suggests.
-/

namespace JsonStream

/-! ## Outlines -/

inductive Outline
  | blank
  | keyword (word : Keyword)
  -- Zero as long as the number has not ended.
  | number (x : Binary64)
  -- Without text as long as the string has not ended.
  | string (text : Option Bytes)
  | array (items : List Value)
  | object (members : List (Bytes × Value))
  deriving DecidableEq, Repr

/-- What the outermost unfinished value waits for. At `element`, `name` and `member` a child is to come or has
come in part, and at the first two of these a container without children may close instead. -/
inductive Stage
  | start
  | keyword (word : Keyword)
  | number
  | string
  | escape
  | element
  | elementEnd
  | name
  | nameEnd
  | member
  | memberEnd
  deriving DecidableEq, Repr

/-- The outline of a complete value is the whole of it. -/
def Value.outline : Value → Outline
  | null => .keyword .null
  | bool b => .keyword (.bool b)
  | number x => .number x
  | string text => .string (some text)
  | array items => .array items
  | object members => .object members

namespace Outline

def kind? : Outline → Option Kind
  | blank => none
  | keyword w => some (.keyword w)
  | number _ => some .number
  | string _ => some .string
  | array _ => some (.container .array)
  | object _ => some (.container .object)

def children : Outline → List (Option Bytes × Value)
  | array items => items.map fun v => (none, v)
  | object members => members.map fun (name, v) => (some name, v)
  | _ => []

/-- Whether two outlines show the same. -/
def same : Outline → Outline → Bool
  | blank, blank => true
  | keyword v, keyword w => v == w
  | number x, number y => x.same y
  | string s, string t => s == t
  | array xs, array ys => Value.sameItems xs ys
  | object ms, object ns => Value.sameMembers ms ns
  | _, _ => false

/-- The complete value with the same payload: a blank is null, and a string without text is empty. -/
def filled : Outline → Value
  | blank => .null
  | keyword w => w.value
  | number x => .number x
  | string text => .string (text.getD [])
  | array items => .array items
  | object members => .object members

end Outline

/-- Nothing is missing from the outline of a complete value. -/
theorem Value.filled_outline (v : Value) : v.outline.filled = v := by
  cases v with
  | bool b =>
    cases b <;> rfl
  | _ =>
    rfl

/-! ## Views of frames and places -/

def Frame.outline : Frame → Outline
  | array items => .array items.toList
  | object members _ => .object members.toList

def Frame.stage : Frame → Stage
  | array _ => .element
  | object _ _ => .member

def Focus.outline : Focus → Outline
  | blank => .blank
  | keyword w _ => .keyword w
  | number _ => .number (.zero false)
  | string .value _ => .string none
  | string (.name members) _ => .object members.toList
  | escape .value _ => .string none
  | escape (.name members) _ => .object members.toList
  | element items => .array items.toList
  | name members => .object members.toList
  | colon members _ => .object members.toList

def Focus.stage : Focus → Stage
  | blank => .start
  | keyword w _ => .keyword w
  | number _ => .number
  | string .value _ => .string
  | string (.name _) _ => .name
  | escape .value _ => .escape
  | escape (.name _) _ => .name
  | element _ => .element
  | name _ => .name
  | colon _ _ => .nameEnd

/-! ## Views of trees -/

namespace Tree

/-- The outline of the outermost value. Where there are frames, that is the last of them. -/
def outline : Tree → Outline
  | settled (.document v) => v.outline
  | settled (.element outer items) => (outer.getLast?.map Frame.outline).getD (.array items.toList)
  | settled (.member outer members) => (outer.getLast?.map Frame.outline).getD (.object members.toList)
  | live outer focus => (outer.getLast?.map Frame.outline).getD focus.outline

/-- What the outermost value waits for; nothing once it has ended. -/
def stage? : Tree → Option Stage
  | settled (.document _) => none
  | settled (.element outer _) => some ((outer.getLast?.map Frame.stage).getD .elementEnd)
  | settled (.member outer _) => some ((outer.getLast?.map Frame.stage).getD .memberEnd)
  | live outer focus => some ((outer.getLast?.map Frame.stage).getD focus.stage)

def kind? (t : Tree) : Option Kind :=
  t.outline.kind?

def children (t : Tree) : List (Option Bytes × Value) :=
  t.outline.children

/-- Whether two trees show the same. How far each has come with what does not show makes no
difference. -/
def same (t u : Tree) : Bool :=
  t.outline.same u.outline

/-- The complete value that a tree shows: an unfinished container holds the children that have ended,
and anything else that is unfinished is null. -/
def visible (t : Tree) : Value :=
  match t.value?, t.outline with
  | some v, _ => v
  | none, .array items => .array items
  | none, .object members => .object members
  | none, _ => .null

/-- The complete value of the outline, without regard to whether the tree has ended. -/
def filled (t : Tree) : Value :=
  t.outline.filled

/-- A complete value as the tree of a document that has ended. -/
def ofValue (v : Value) : Tree :=
  settled (.document v)

/-! ## Payloads

Payloads are those of complete values only. -/

def number? (t : Tree) : Option Binary64 :=
  match t.value? with
  | some (.number x) => some x
  | _ => none

def text? (t : Tree) : Option Bytes :=
  match t.value? with
  | some (.string text) => some text
  | _ => none

def chars? (t : Tree) : Option (List Char) :=
  t.text?.bind Utf8.decode?

def bool? (t : Tree) : Option Bool :=
  match t.value? with
  | some (.bool b) => some b
  | _ => none

def isNull (t : Tree) : Bool :=
  match t.value? with
  | some .null => true
  | _ => false

end Tree

/-! ## Walking through a tree -/

structure Visit where
  depth : Nat
  name : Option Bytes
  tree : Tree
  deriving DecidableEq, Repr

mutual

/-- A value at a depth and everything inside it, each before what it holds. -/
def Value.walk (depth : Nat) (name : Option Bytes) : Value → List Visit
  | .array items => ⟨depth, name, .ofValue (.array items)⟩ :: walkItems (depth + 1) items
  | .object members => ⟨depth, name, .ofValue (.object members)⟩ :: walkMembers (depth + 1) members
  | v => [⟨depth, name, .ofValue v⟩]

def Value.walkItems (depth : Nat) : List Value → List Visit
  | [] => []
  | v :: rest => v.walk depth none ++ walkItems depth rest

def Value.walkMembers (depth : Nat) : List (Bytes × Value) → List Visit
  | [] => []
  | (name, v) :: rest => v.walk depth (some name) ++ walkMembers depth rest

end

def Tree.walk (t : Tree) : List Visit :=
  ⟨0, none, t⟩ :: t.children.flatMap fun (name, v) => v.walk 1 name

end JsonStream
