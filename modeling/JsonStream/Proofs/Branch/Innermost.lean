import JsonStream.Branch.Path
import JsonStream.Proofs.Branch.Agreement

/-!
# The innermost value

Under frames the chain of values in progress begins with one container for each frame and goes on with that of
the value inside them. So the innermost value of a tree is the one at the place where the tree goes on, and
what it waits for can be read off that place.

- `Branch.openContainers_plug`, `Branch.innermost_plug` — down through all frames
- `Tree.stage_innermost` — the innermost value of a tree
- `Tree.exists_number_of_innermost`, `Tree.exists_escape_of_innermost` — the place that a stage belongs to
-/

namespace JsonStream

variable {outer : List Frame} {name : Option Bytes} {literal text : Array UInt8} {role : Role} {t : Tree}

/-! ## Down through the frames -/

namespace Branch

variable {n : Branch}

/-- A frame is an open container outside all others. -/
theorem openContainers_around (f : Frame) :
    (f.around name n).openContainers = f.container :: n.openContainers := by
  cases f <;> rfl

/-- A frame around a value does not change what is innermost. -/
theorem innermost_around (f : Frame) : (f.around name n).innermost = n.innermost := by
  cases f <;> rfl

/-- The frames are open containers, and the first of them is the innermost. -/
theorem openContainers_plug :
    (Frame.plug outer n).openContainers = (outer.map Frame.container).reverse ++ n.openContainers := by
  induction outer generalizing n with
  | nil =>
      rfl
  | cons f outer ih =>
      rw [Frame.plug, ih, openContainers_around, List.map_cons, List.reverse_cons, List.append_assoc,
        List.singleton_append]

theorem innermost_plug : (Frame.plug outer n).innermost = n.innermost := by
  induction outer generalizing n with
  | nil =>
      rfl
  | cons f outer ih =>
      rw [Frame.plug, ih, innermost_around]

end Branch

/-! ## Trees -/

/-- What the innermost value waits for. A name in progress is a value of its own inside its object, and a name
that has ended is the beginning of the member's value. -/
def Focus.innermostStage : Focus → Stage
  | .blank | .colon _ _ => .start
  | .keyword w _ => .keyword w
  | .number _ => .number
  | .string _ _ => .string
  | .escape _ _ => .escape
  | .element _ => .element
  | .name _ => .name

def Tree.innermostStage? : Tree → Option Stage
  | .settled (.document _) => none
  | .settled (.element _ _) => some .elementEnd
  | .settled (.member _ _) => some .memberEnd
  | .live _ focus => some focus.innermostStage

namespace Tree

/-- The stage of the innermost branch is that of the focus, or nothing once the document has ended. -/
theorem stage_innermost (t : Tree) : t.branch.innermost.stage = t.innermostStage? := by
  cases t with
  | settled place =>
      cases place with
      | document v =>
          cases v <;> rfl
      | element outer items =>
          rw [branch, Settled.branch, Branch.innermost_plug]
          rfl
      | member outer members =>
          rw [branch, Settled.branch, Branch.innermost_plug]
          rfl
  | live outer focus =>
      rw [branch, Branch.innermost_plug]
      cases focus with
      | string role text =>
          cases role <;> rfl
      | escape role text =>
          cases role <;> rfl
      | _ =>
          rfl

/-- Inside a number, the innermost branch is the number with its literal. -/
theorem innermost_number (outer : List Frame) (literal : Array UInt8) :
    (live outer (.number literal)).branch.innermost =
      .scalar (Frame.nameInside outer) .number .number literal := by
  rw [branch, Branch.innermost_plug]
  rfl

/-- A string in progress keeps what it has gathered while an escape is to come, also if it is a name. -/
theorem token_innermost_escape (outer : List Frame) (role : Role) (text : Array UInt8) :
    (live outer (.escape role text)).branch.innermost.token = text := by
  rw [branch, Branch.innermost_plug]
  cases role <;> rfl

/-- If the innermost value is a number, that is the place the last byte left off. -/
theorem exists_number_of_innermost (number : t.branch.innermost.stage = some .number) :
    ∃ outer literal, t = live outer (.number literal) := by
  rw [stage_innermost] at number
  cases t with
  | settled place =>
      cases place <;> cases number
  | live outer focus =>
      cases focus with
      | number literal =>
          exact ⟨outer, literal, rfl⟩
      | _ =>
          cases number

/-- Likewise for an escape, which may be that of a value or of a name. -/
theorem exists_escape_of_innermost (escape : t.branch.innermost.stage = some .escape) :
    ∃ outer role text, t = live outer (.escape role text) := by
  rw [stage_innermost] at escape
  cases t with
  | settled place =>
      cases place <;> cases escape
  | live outer focus =>
      cases focus with
      | escape role text =>
          exact ⟨outer, role, text, rfl⟩
      | _ =>
          cases escape

end Tree

end JsonStream
