import JsonStream.Branch
import JsonStream.Proofs.Grammar.Reads

/-!
# Both forms of a tree take the same steps

A byte fed to `Tree.branch` goes down through all containers and its effect comes back up through them; a
byte fed to the tree changes the innermost place only. The two agree on every tree and every byte, also
on which fault refuses it.

- `Branch.advance_plug` — the way down, and `Frame.resume`, the way back up
- `Tree.advance_branch` — a byte for a document
- `Tree.feed_branch`, `Tree.feedEach_branch` — a byte and a run for a session
-/

namespace JsonStream

variable {o : Options} {b : UInt8} {outer : List Frame} {name : Option Bytes} {t u : Tree}
  {events : List Event}

def Taken.branch (r : Taken) : Branch × Status :=
  (r.1.branch, r.1.status)

/-! ## Down and up through containers -/

def Frame.container : Frame → Container
  | array _ => .array
  | object _ _ => .object

/-- The way back from a value in progress: every container around it goes on with what became of the
child. -/
def Frame.resume (o : Options) (b : UInt8) : List Frame → Branch × Status → Except Fault (Branch × Status)
  | [], result => .ok result
  | f :: outer, result =>
    ((f.around (nameInside outer) result.1).afterValue f.container o b result).bind (resume o b outer)

namespace Branch

variable {n m : Branch} {depth : Nat} {status : Status}

/-- A container hands the byte to the value inside it, and looks at the answer. -/
theorem advance_around (f : Frame) :
    (f.around name n).advance o b depth =
      (n.advance o b (depth + 1)).bind ((f.around name n).afterValue f.container o b) := by
  cases f with
  | array items =>
      rfl
  | object members called =>
      rfl

/-- What a container does next does not depend on what the child was before. -/
theorem afterValue_active (active : Option Branch) (c : Container) (result : Branch × Status) :
    { n with active }.afterValue c o b result = n.afterValue c o b result := by
  rcases result with ⟨child, status⟩
  cases status <;> rfl

theorem around_eq (f : Frame) (m : Branch) : f.around name n = { f.around name m with active := some n } := by
  cases f <;> rfl

/-- A byte goes down to the value in progress, and its effect comes back up. -/
theorem advance_plug :
    (Frame.plug outer n).advance o b depth =
      (n.advance o b (depth + outer.length)).bind (Frame.resume o b outer) := by
  -- The innermost frame comes first in the list, so the value grows by a frame at each step.
  induction outer generalizing n with
  | nil =>
      rw [Frame.plug, List.length_nil, Nat.add_zero]
      cases n.advance o b depth with
      | error fault =>
          rfl
      | ok result =>
          rfl
  | cons f outer ih =>
      rw [Frame.plug, ih, advance_around, List.length_cons, Nat.add_assoc]
      cases n.advance o b (depth + (outer.length + 1)) with
      | error fault =>
          rfl
      | ok result =>
          simp only [Except.bind, Frame.resume]
          -- The child as it was before the byte is forgotten on the way up.
          rw [around_eq f result.1, afterValue_active]

end Branch

namespace Frame

/-- As long as the value inside is in progress, the containers around it stay as they are. -/
theorem resume_pending (n : Branch) :
    resume o b outer (n, .pending) = .ok (plug outer n, .pending) := by
  induction outer generalizing n with
  | nil =>
      rfl
  | cons f outer ih =>
      -- A container with a child still in progress stays at its own stage.
      have again : (f.around (nameInside outer) n).afterValue f.container o b (n, .pending) =
          .ok (f.around (nameInside outer) n, .pending) := by
        cases f <;> rfl
      rw [resume, again]
      exact ih _

end Frame

/-! ## Values that end -/

namespace Value

theorem kind_branch (v : Value) : (v.branch name).kind = some v.kind := by
  cases v <;> rfl

theorem branchItems_append (vs ws : List Value) :
    branchItems (vs ++ ws) = branchItems vs ++ branchItems ws := by
  induction vs with
  | nil =>
      rfl
  | cons v rest ih =>
      rw [List.cons_append, branchItems, branchItems, ih, List.cons_append]

theorem branchMembers_append (vs ws : List (Bytes × Value)) :
    branchMembers (vs ++ ws) = branchMembers vs ++ branchMembers ws := by
  induction vs with
  | nil =>
      rfl
  | cons first rest ih =>
      rcases first with ⟨called, v⟩
      rw [List.cons_append, branchMembers, branchMembers, ih, List.cons_append]

theorem isEmpty_branchItems (items : Array Value) :
    (branchItems items.toList).isEmpty = items.isEmpty := by
  rcases items with ⟨items⟩
  cases items <;> rfl

theorem isEmpty_branchMembers (members : Array (Bytes × Value)) :
    (branchMembers members.toList).isEmpty = members.isEmpty := by
  rcases members with ⟨members⟩
  cases members <;> rfl

end Value

def Frame.closed (name : Option Bytes) (v : Value) : Frame → Branch
  | array items => .array name (items.push v) .elementEnd none
  | object members called => .object name (members.push (called, v)) .memberEnd none

namespace Frame

/-- Where a value has ended inside frames, the innermost of them has been closed around it. -/
theorem branch_of_cons (f : Frame) (v : Value) :
    (Settled.of (f :: outer) v).branch = plug outer (f.closed (nameInside outer) v) := by
  cases f <;> rfl

/-- Adding the child that has ended to its container is closing the frame. -/
theorem closeChild_around (f : Frame) (child : Branch) (v : Value) :
    (f.around name child).closeChild (v.branch (nameInside (f :: outer))) f.container.afterChild =
      f.closed name v := by
  cases f with
  | array items =>
      simp [around, closed, Branch.array, Branch.closeChild, Value.branchItems_append,
        Value.branchItems, container, Container.afterChild, nameInside]
  | object members called =>
      simp [around, closed, Branch.object, Branch.closeChild, Value.branchMembers_append,
        Value.branchMembers, container, Container.afterChild, nameInside]

/-- A container whose child has ended has its byte itself. -/
theorem advance_closed (f : Frame) (v : Value) (depth : Nat) :
    (f.closed name v).advance o b depth = (f.closed name v).feedAfterChild f.container o b := by
  cases f <;> rfl

/-- The containers around a value that has ended, other than a number. -/
theorem resume_complete {v : Value} (notNumber : v.kind ≠ .number) :
    resume o b outer (v.branch (nameInside outer), .complete) =
      .ok ((Settled.of outer v).branch, (Tree.settled (.of outer v)).status) := by
  cases outer with
  | nil =>
      rfl
  | cons f outer =>
      -- Only a number gives its last byte back to the container.
      have kind_ne : (v.branch (nameInside (f :: outer))).kind ≠ some .number := by
        rw [v.kind_branch]
        exact fun same => notNumber (Option.some.inj same)
      have pending : (Tree.settled (.of (f :: outer) v)).status = .pending := by
        cases f <;> rfl
      -- The innermost container takes the child in, and all others have a child in progress again.
      rw [resume, Branch.afterValue, if_neg kind_ne, closeChild_around, branch_of_cons, pending]
      exact resume_pending _

/-- The containers around a number that has ended, at the byte after it. -/
theorem resume_number (f : Frame) (x : Binary64) :
    resume o b (f :: outer) ((Value.number x).branch (nameInside (f :: outer)), .complete) =
      ((Settled.of (f :: outer) (.number x)).branch).advance o b 0 := by
  have kind_eq : ((Value.number x).branch (nameInside (f :: outer))).kind = some .number := rfl
  rw [resume, Branch.afterValue, if_pos kind_eq, closeChild_around, branch_of_cons,
    Branch.advance_plug, advance_closed]

end Frame

/-! ## Each place

In every case the byte reaches the innermost value, whose own rule asks the same questions as that of the
tree. What comes back up is either the value still in progress or one that has ended. -/

/-- Two rules agree if they ask the same question and agree whatever the answer. -/
theorem agree_ite {α β γ : Type} {c d : Prop} [Decidable c] [Decidable d] {x x' : Except Fault α}
    {y y' : Except Fault β} {f : α → Except Fault γ} {g : β → γ} (same : c = d)
    (yes : d → x.bind f = y.map g) (no : ¬ d → x'.bind f = y'.map g) :
    (if c then x else x').bind f = (if d then y else y').map g := by
  subst same
  by_cases answer : c
  · rw [if_pos answer, if_pos answer]
    exact yes answer
  · rw [if_neg answer, if_neg answer]
    exact no answer

/-- Two rules agree if they do the same with a token once it is longer. -/
theorem agree_extend {α β γ : Type} {token : Array UInt8} {f : α → Except Fault γ} {g : β → γ}
    {p : Array UInt8 → α} {q : Array UInt8 → β} (same : ∀ longer, f (p longer) = .ok (g (q longer))) :
    ((o.extend token b).map p).bind f = ((o.extend token b).map q).map g := by
  cases o.extend token b with
  | error fault =>
      rfl
  | ok longer =>
      exact same longer

/-- An array that ends with the byte, taken in by all containers around it. -/
theorem resume_array (outer : List Frame) (items : Array Value) :
    Frame.resume o b outer ((Value.array items.toList).branch (Frame.nameInside outer), .complete) =
      .ok (closeArray outer items).branch :=
  Frame.resume_complete nofun

theorem resume_object (outer : List Frame) (members : Array (Bytes × Value)) :
    Frame.resume o b outer
        ((Value.object members.toList).branch (Frame.nameInside outer), .complete) =
      .ok (closeObject outer members).branch :=
  Frame.resume_complete nofun

/-- A string begins. -/
theorem Branch.feedStart_quote (n : Branch) (depth : Nat) :
    n.feedStart o depth Byte.quote = .ok (n.begin .string .string, .pending) := by
  rw [feedStart, o.isSpace_eq_false (by decide), if_neg Bool.false_ne_true]
  rfl

namespace Settled

/-- A byte after a value, whatever the value was. -/
theorem advance_branch (s : Settled) :
    s.branch.advance o b 0 = (s.feed o b).map Taken.branch := by
  cases s with
  | document v =>
      have done : (document v).branch.advance o b 0 = (v.branch none).feedDone o b := by
        cases v <;> rfl
      rw [done, feed, Branch.feedDone]
      by_cases space : o.isSpace b = true
      · rw [if_pos space, if_pos space]
        rfl
      · rw [if_neg space, if_neg space]
        rfl
  | element outer items =>
      rw [branch, Branch.advance_plug]
      refine agree_ite rfl (fun space => Frame.resume_pending _) fun notSpace => ?_
      refine agree_ite rfl (fun comma => Frame.resume_pending _) fun notComma => ?_
      refine agree_ite rfl (fun close => resume_array outer items) fun notClose => ?_
      exact agree_ite rfl (fun other => rfl) fun notOther => rfl
  | member outer members =>
      rw [branch, Branch.advance_plug]
      refine agree_ite rfl (fun space => Frame.resume_pending _) fun notSpace => ?_
      refine agree_ite rfl (fun comma => Frame.resume_pending _) fun notComma => ?_
      refine agree_ite rfl (fun close => resume_object outer members) fun notClose => ?_
      exact agree_ite rfl (fun other => rfl) fun notOther => rfl

end Settled

/-- The beginning of a list with one more element is a beginning exactly if that element is the next. -/
theorem take_concat_prefix_iff {α : Type} (s : List α) (n : Nat) (a : α) :
    s.take n ++ [a] <+: s ↔ s[n]? = some a := by
  calc
    s.take n ++ [a] <+: s ↔ s.take n ++ [a] <+: s.take n ++ s.drop n := by rw [List.take_append_drop]
    _ ↔ [a] <+: s.drop n := List.prefix_append_right_inj _
    _ ↔ (s.drop n).head? = some a := by cases s.drop n <;> simp [List.cons_prefix_cons, eq_comm]
    _ ↔ s[n]? = some a := by rw [List.head?_drop]

namespace Tree

variable {items : Array Value} {members : Array (Bytes × Value)} {called : Bytes} {word : Keyword}
  {seen : Nat} {literal text : Array UInt8} {role : Role}

/-- A byte that begins a value, for the value itself. -/
theorem feedStart_agrees (outer : List Frame) :
    (({ name := Frame.nameInside outer } : Branch).feedStart o outer.length b).bind (Frame.resume o b outer) =
      ((live outer .blank).feed o b).map Taken.branch := by
  rw [feed_blank, Branch.feedStart, beginValue]
  refine agree_ite rfl (fun space => Frame.resume_pending _) fun notSpace => ?_
  -- From here on both rules go by what the byte opens or begins.
  cases Container.openedBy? b with
  | some c =>
      refine agree_ite rfl (fun full => rfl) fun room => ?_
      cases c with
      | array =>
          exact Frame.resume_pending _
      | object =>
          exact Frame.resume_pending _
  | none =>
      refine agree_ite rfl (fun quote => Frame.resume_pending _) fun notQuote => ?_
      refine agree_ite rfl (fun first => ?_) fun notNumber => ?_
      · exact agree_extend fun longer => Frame.resume_pending _
      · cases begins : Keyword.startingWith? b with
        | none =>
            rfl
        | some w =>
            -- One holds the letters that have come, the other their number.
            have first : w.spelling.take 1 = [b] := by
              rw [List.take_one, Keyword.startingWith?_eq_some_iff.1 begins, Option.toList_some]
            refine (Frame.resume_pending _).trans ?_
            exact congrArg (fun token => Except.ok (Frame.plug outer
              (.scalar (Frame.nameInside outer) (.keyword w) (.keyword w) token), Status.pending))
              (congrArg List.toArray first.symm)

theorem advance_keyword :
    (live outer (.keyword word seen)).branch.advance o b 0 =
      ((live outer (.keyword word seen)).feed o b).map Taken.branch := by
  rw [branch, Branch.advance_plug, feed_keyword]
  have longer : ((word.spelling.take seen).toArray.push b).toList = word.spelling.take seen ++ [b] := by
    simp
  -- The one asks for a beginning of the word, the other for the next letter.
  have same : (((word.spelling.take seen).toArray.push b).toList <+: word.spelling) =
      (word.spelling[seen]? = some b) := by
    rw [longer, take_concat_prefix_iff]
  refine agree_ite same (fun next => ?_) fun mismatch => rfl
  rcases List.getElem?_eq_some_iff.1 next with ⟨within, spelled⟩
  have pushed : (word.spelling.take seen).toArray.push b = (word.spelling.take (seen + 1)).toArray := by
    rw [List.take_succ_eq_append_getElem within, spelled, List.push_toArray]
  -- Both find the end of the word by its length.
  have size_eq : ((word.spelling.take seen).toArray.push b).size = seen + 1 := by
    simp [Nat.min_eq_left (Nat.le_of_lt within)]
  refine agree_ite (congrArg (fun size => size = word.spelling.length) size_eq) (fun last => ?_) fun more => ?_
  · cases word with
    | null =>
        exact Frame.resume_complete (v := .null) nofun
    | bool c =>
        exact Frame.resume_complete (v := .bool c) nofun
  · refine (Frame.resume_pending _).trans ?_
    exact congrArg (fun token => Except.ok (Frame.plug outer
      (.scalar (Frame.nameInside outer) (.keyword word) (.keyword word) token), Status.pending)) pushed

theorem advance_string :
    (live outer (.string role text)).branch.advance o b 0 =
      ((live outer (.string role text)).feed o b).map Taken.branch := by
  rw [branch, Branch.advance_plug, feed_string]
  -- A name is one more value inside the object, with a way back of its own.
  cases role with
  | value =>
      refine agree_ite rfl (fun quote => ?_) fun notQuote => ?_
      · exact Frame.resume_complete (v := .string text.toList) nofun
      · refine agree_ite rfl (fun backslash => Frame.resume_pending _) fun notBackslash => ?_
        exact agree_extend fun longer => Frame.resume_pending _
  | name members =>
      refine (bind_map_left (m := Except Fault) _ _ _).trans ?_
      refine agree_ite rfl (fun quote => Frame.resume_pending _) fun notQuote => ?_
      refine agree_ite rfl (fun backslash => Frame.resume_pending _) fun notBackslash => ?_
      exact agree_extend fun longer => Frame.resume_pending _

theorem advance_escape :
    (live outer (.escape role text)).branch.advance o b 0 =
      ((live outer (.escape role text)).feed o b).map Taken.branch := by
  rw [branch, Branch.advance_plug, feed_escape]
  cases role with
  | value =>
      change ((Branch.feedEscape _ o b).bind _) = _
      rw [feedEscape, Branch.feedEscape]
      cases Escape.decode? b with
      | none =>
          rfl
      | some c =>
          exact agree_extend fun longer => Frame.resume_pending _
  | name members =>
      refine (bind_map_left (m := Except Fault) _ _ _).trans ?_
      change ((Branch.feedEscape _ o b).bind _) = _
      rw [feedEscape, Branch.feedEscape]
      cases Escape.decode? b with
      | none =>
          rfl
      | some c =>
          exact agree_extend fun longer => Frame.resume_pending _

theorem advance_element :
    (live outer (.element items)).branch.advance o b 0 =
      ((live outer (.element items)).feed o b).map Taken.branch := by
  rw [branch, Branch.advance_plug, feed_element]
  -- Both ask whether the array has an element yet.
  have empty : (Value.branchItems items.toList).isEmpty = items.isEmpty := Value.isEmpty_branchItems items
  refine agree_ite rfl (fun space => Frame.resume_pending _) fun notSpace => ?_
  refine agree_ite ?_ (fun close => resume_array outer items) fun notClose => ?_
  · exact congrArg (fun e : Bool => (b = Byte.closeBracket ∧ e = true)) empty
  · refine agree_ite rfl (fun brace => rfl) fun notBrace => ?_
    -- The element begins inside the array, which is one more frame.
    have begins := feedStart_agrees (o := o) (b := b) (.array items :: outer)
    rw [feed_blank, if_neg notSpace] at begins
    rw [← begins, Nat.zero_add]
    refine (bind_assoc (m := Except Fault) _ _ _).trans ?_
    refine congrArg (Except.bind _) (funext fun result => ?_)
    rw [Frame.resume, ← Branch.afterValue_active (some result.1)]
    rfl

theorem advance_name :
    (live outer (.name members)).branch.advance o b 0 =
      ((live outer (.name members)).feed o b).map Taken.branch := by
  rw [branch, Branch.advance_plug, feed_name]
  have empty : (Value.branchMembers members.toList).isEmpty = members.isEmpty :=
    Value.isEmpty_branchMembers members
  refine agree_ite rfl (fun space => Frame.resume_pending _) fun notSpace => ?_
  refine agree_ite rfl (fun quote => ?_) fun notQuote => ?_
  · subst quote
    rw [Branch.feedStart_quote]
    exact Frame.resume_pending _
  · refine agree_ite ?_ (fun close => resume_object outer members) fun notClose => ?_
    · exact congrArg (fun e : Bool => b = Byte.closeBrace ∧ e = true) empty
    · exact agree_ite rfl (fun bracket => rfl) fun notBracket => rfl

theorem advance_colon :
    (live outer (.colon members called)).branch.advance o b 0 =
      ((live outer (.colon members called)).feed o b).map Taken.branch := by
  rw [branch, Branch.advance_plug, feed_colon]
  refine agree_ite rfl (fun space => Frame.resume_pending _) fun notSpace => ?_
  exact agree_ite rfl (fun colon => Frame.resume_pending _) fun notColon => rfl

/-- A number ends at a byte that is no part of it. -/
theorem feedNumber_of_ends (part : ¬ Byte.inNumber b = true)
    (ends : (o.isSpace b || Byte.followsNumber b) = true) :
    (Branch.scalar name .number .number literal).feedNumber o b =
      (numberOf literal).map fun v => (v.branch name, .complete) := by
  rw [Branch.feedNumber, if_neg part, if_pos ends, numberOf, Branch.scalar]
  cases Binary64.read? literal.toList with
  | none =>
      rfl
  | some x =>
      rfl

/-- A byte for a number in progress. Its rule and that of the tree ask the same questions, so they agree
once the way back up does for the longer number and for the number that has ended. -/
theorem feedNumber_agrees {up : Branch × Status → Except Fault (Branch × Status)}
    (longer : ∀ more, up (Branch.scalar name .number .number more, .pending) =
      .ok ((live outer (.number more)).branch, .pending))
    (ended : ∀ x, up ((Value.number x).branch name, .complete) =
      ((Settled.of outer (.number x)).feed o b).map Taken.branch) :
    ((Branch.scalar name .number .number literal).feedNumber o b).bind up =
      ((live outer (.number literal)).feed o b).map Taken.branch := by
  by_cases part : Byte.inNumber b = true
  · rw [Branch.feedNumber, if_pos part, feed_number_of_inNumber part]
    exact agree_extend longer
  · by_cases ends : (o.isSpace b || Byte.followsNumber b) = true
    · rw [feedNumber_of_ends part ends, feed_number_of_ends (Bool.or_eq_true_iff.1 ends)]
      cases read : numberOf literal with
      | error fault =>
          rfl
      | ok v =>
          rcases numberOf_eq_ok_iff.1 read with ⟨x, -, rfl⟩
          exact ended x
    · rw [Branch.feedNumber, if_neg part, if_neg ends,
        feed_number_of_neither (Bool.not_eq_true _ ▸ part) (fun h => ends (Bool.or_eq_true_iff.2 h))]
      rfl

/-- A number inside a container. -/
theorem advance_number {f : Frame} :
    (live (f :: outer) (.number literal)).branch.advance o b 0 =
      ((live (f :: outer) (.number literal)).feed o b).map Taken.branch := by
  rw [branch, Branch.advance_plug]
  refine feedNumber_agrees (fun more => Frame.resume_pending _) fun x => ?_
  -- The container looks at the byte again once the number in it has ended.
  exact (Frame.resume_number f x).trans (Settled.advance_branch _)

/-- A byte for a document, unless that is a number in progress. -/
theorem advance_branch (t : Tree) (notNumber : ∀ literal, t ≠ live [] (.number literal)) :
    t.branch.advance o b 0 = (t.feed o b).map Taken.branch := by
  cases t with
  | settled s =>
      rw [feed_settled]
      exact s.advance_branch
  | live outer focus =>
      cases focus with
      | blank =>
          rw [branch, Branch.advance_plug, Nat.zero_add]
          exact feedStart_agrees outer
      | keyword word seen =>
          exact advance_keyword
      | number literal =>
          cases outer with
          | nil =>
              exact absurd rfl (notNumber literal)
          | cons f outer =>
              exact advance_number
      | string role text =>
          exact advance_string
      | escape role text =>
          exact advance_escape
      | element items =>
          exact advance_element
      | name members =>
          exact advance_name
      | colon members called =>
          exact advance_colon

end Tree

/-! ## Views

A container on the outside shows no more of what is inside than that it is there. -/

namespace Value

/-- Elements are branches without a name. -/
theorem branchItems_eq_map (items : List Value) : branchItems items = items.map (branch none) := by
  induction items with
  | nil =>
      rfl
  | cons v rest ih =>
      rw [branchItems, ih, List.map_cons]

/-- Members are branches with a name. -/
theorem branchMembers_eq_map (members : List (Bytes × Value)) :
    branchMembers members = members.map fun (name, v) => v.branch (some name) := by
  induction members with
  | nil =>
      rfl
  | cons first rest ih =>
      rcases first with ⟨called, v⟩
      rw [branchMembers, ih, List.map_cons]

end Value

namespace Branch

structure Outlined (n : Branch) (outline : Outline) (stage : Stage) : Prop where
  kind : n.kind = outline.kind?
  stage : n.stage = some stage
  children : n.children = outline.children.map fun (name, v) => v.branch name
  text : n.text = none

theorem outlined_array (name : Option Bytes) (items : Array Value) (stage : Stage) (active : Option Branch) :
    (array name items stage active).Outlined (.array items.toList) stage := by
  refine ⟨rfl, rfl, ?_, rfl⟩
  simp only [array, Value.branchItems_eq_map, Outline.children, List.map_map]
  rfl

theorem outlined_object (name : Option Bytes) (members : Array (Bytes × Value)) (stage : Stage)
    (active : Option Branch) : (object name members stage active).Outlined (.object members.toList) stage := by
  refine ⟨rfl, rfl, ?_, rfl⟩
  simp only [object, Value.branchMembers_eq_map, Outline.children, List.map_map]
  rfl

end Branch

/-- The outermost value inside some frames is the container of the last of them. -/
theorem Frame.exists_plug_eq_around {n : Branch} {f : Frame} (last : outer.getLast? = some f) :
    ∃ child, plug outer n = f.around none child := by
  -- The last frame of the list is the outermost.
  induction outer generalizing n with
  | nil =>
      cases last
  | cons g outer ih =>
      cases outer with
      | nil =>
          cases last
          exact ⟨n, rfl⟩
      | cons h rest =>
          rw [List.getLast?_cons_cons] at last
          exact ih last

/-- What shows is the outermost container, or the value itself if there is none. -/
theorem Frame.outlined_plug {n : Branch} {outline : Outline} {stage : Stage}
    (inside : n.Outlined outline stage) :
    (plug outer n).Outlined ((outer.getLast?.map Frame.outline).getD outline)
      ((outer.getLast?.map Frame.stage).getD stage) := by
  cases last : outer.getLast? with
  | none =>
      obtain rfl := List.getLast?_eq_none_iff.1 last
      exact inside
  | some f =>
      rcases exists_plug_eq_around (n := n) last with ⟨child, same⟩
      rw [same]
      cases f with
      | array items =>
          exact Branch.outlined_array _ items _ _
      | object members called =>
          exact Branch.outlined_object _ members _ _

/-- Without frames, the outline is that of the focus. -/
theorem Focus.outlined (focus : Focus) : (focus.branch name).Outlined focus.outline focus.stage := by
  cases focus with
  | string role text =>
      cases role with
      | value =>
          exact ⟨rfl, rfl, rfl, rfl⟩
      | name members =>
          exact Branch.outlined_object _ members _ _
  | escape role text =>
      cases role with
      | value =>
          exact ⟨rfl, rfl, rfl, rfl⟩
      | name members =>
          exact Branch.outlined_object _ members _ _
  | element items =>
      exact Branch.outlined_array _ items _ _
  | name members =>
      exact Branch.outlined_object _ members _ _
  | colon members called =>
      exact Branch.outlined_object _ members _ _
  | _ =>
      exact ⟨rfl, rfl, rfl, rfl⟩

namespace Tree

/-- A tree in progress shows its outline and waits at its stage, seen from outside as well. -/
theorem outlined_of_incomplete (incomplete : t.value? = none) :
    ∃ stage, t.stage? = some stage ∧ t.branch.Outlined t.outline stage := by
  cases t with
  | settled place =>
      cases place with
      | document v =>
          cases incomplete
      | element outer items =>
          exact ⟨_, rfl, Frame.outlined_plug (Branch.outlined_array _ items _ _)⟩
      | member outer members =>
          exact ⟨_, rfl, Frame.outlined_plug (Branch.outlined_object _ members _ _)⟩
  | live outer focus =>
      exact ⟨_, rfl, Frame.outlined_plug focus.outlined⟩

end Tree

/-- All that a branch shows is what a tree shows. -/
structure Branch.Shows (n : Branch) (t : Tree) : Prop where
  kind : n.kind = t.kind?
  stage : n.stage = t.stage?
  children : n.children = t.children.map fun (name, v) => v.branch name
  isComplete : n.isComplete = t.isComplete
  number? : n.number? = t.number?
  text? : n.text? = t.text?
  bool? : n.bool? = t.bool?
  isNull : n.isNull = t.isNull

/-- The views of a tree and those of its branch are the same. -/
theorem Tree.shows_branch (t : Tree) : t.branch.Shows t := by
  -- A complete value shows all of itself; of any other no payload shows.
  cases complete : t.value? with
  | some v =>
      obtain rfl := value?_eq_some_iff.1 complete
      cases v with
      | array items =>
          have children := (Branch.outlined_array none items.toArray .element none).children
          exact ⟨rfl, rfl, children, rfl, rfl, rfl, rfl, rfl⟩
      | object members =>
          have children := (Branch.outlined_object none members.toArray .name none).children
          exact ⟨rfl, rfl, children, rfl, rfl, rfl, rfl, rfl⟩
      | _ =>
          exact ⟨rfl, rfl, rfl, rfl, rfl, rfl, rfl, rfl⟩
  | none =>
      rcases outlined_of_incomplete complete with ⟨stage, stage_eq, outlined⟩
      have incomplete : t.branch.isComplete = false := by
        rw [Branch.isComplete, outlined.stage, Option.isNone_some]
      refine ⟨outlined.kind, outlined.stage.trans stage_eq.symm, outlined.children, ?_, ?_, ?_, ?_, ?_⟩
      · rw [incomplete, Tree.isComplete, complete, Option.isSome_none]
      · rw [Branch.number?, Tree.number?, complete, incomplete, if_neg (by simp)]
      · rw [Branch.text?, Tree.text?, complete, outlined.text]
        split <;> rfl
      · rw [Branch.bool?, Tree.bool?, complete, incomplete]
        split <;> rfl
      · rw [Branch.isNull, Tree.isNull, complete, incomplete, Bool.and_false]

/-! ## Sessions -/

namespace Tree

variable {literal : Array UInt8}

theorem of_ne_document {v w : Value} (other : v.kind ≠ w.kind) :
    settled (.of outer v) ≠ settled (.document w) := by
  intro same
  rcases Settled.of_eq_document (Tree.settled.inj same) with ⟨-, rfl⟩
  exact other rfl

/-- Where a byte after a value leads to a document that is a number, the value was that document. -/
theorem eq_document_of_takes {s : Settled} {x : Binary64} (takes : s.Takes o b u events)
    (number : u = settled (.document (.number x))) : s = .document (.number x) := by
  cases takes with
  | space space =>
      exact Tree.settled.inj number
  | closeArray =>
      exact absurd number (of_ne_document nofun)
  | closeObject =>
      exact absurd number (of_ne_document nofun)
  | _ =>
      cases number

/-- A document is found to be a number either again or at the byte that ends the number. -/
theorem complete_or_number_of_takes {x : Binary64} (takes : Takes o t b u events)
    (number : u = settled (.document (.number x))) :
    t.isComplete = true ∨ ∃ literal, t = live [] (.number literal) := by
  -- Every other rule leads to a value of another kind, or to a place inside a container.
  cases takes with
  | settled rest =>
      obtain rfl := eq_document_of_takes rest number
      exact .inl rfl
  | numberEnd ends value rest =>
      rcases Settled.of_eq_document (eq_document_of_takes rest number) with ⟨rfl, -⟩
      exact .inr ⟨_, rfl⟩
  | keywordEnd next last =>
      rename_i word seen
      cases word <;> exact absurd number (of_ne_document nofun)
  | stringEnd =>
      rename_i role text
      cases role with
      | value =>
          exact absurd number (of_ne_document nofun)
      | name members =>
          cases number
  | elementClose =>
      exact absurd number (of_ne_document nofun)
  | nameClose =>
      exact absurd number (of_ne_document nofun)
  | blankBegins begins =>
      cases begins <;> cases number
  | elementBegins begins =>
      cases begins <;> cases number
  | _ =>
      cases number

/-- A byte for a number that is the whole document. The byte after it is looked at twice, the second time
by the number that has ended. -/
theorem feed_branch_number :
    (live [] (.number literal)).branch.feed o b =
      ((live [] (.number literal)).feed o b).map Taken.branch := by
  rw [Branch.feed]
  refine feedNumber_agrees (fun more => rfl) fun x => ?_
  exact (Settled.document (.number x)).advance_branch

/-- Both forms take every byte to the same result. -/
theorem feed_branch (o : Options) (t : Tree) (b : UInt8) :
    t.branch.feed o b = (t.feed o b).map Taken.branch := by
  -- The byte is looked at again only if it ended a number that is the whole document.
  by_cases number : ∃ literal, t = live [] (.number literal)
  · rcases number with ⟨literal, rfl⟩
    exact feed_branch_number
  · rw [Branch.feed, advance_branch t fun literal same => number ⟨literal, same⟩]
    cases taken : t.feed o b with
    | error fault =>
        rfl
    | ok result =>
        rcases result with ⟨u, events⟩
        refine if_neg ?_
        rintro ⟨complete, incomplete, kind⟩
        -- Suppose it were looked at again: then the tree is a number that has ended at this byte.
        have ended : u.isComplete = true := by
          cases done : u.isComplete with
          | true =>
              rfl
          | false =>
              simp [Taken.branch, status, done] at complete
        rcases isComplete_iff.1 ended with ⟨v, rfl⟩
        obtain ⟨x, rfl⟩ : ∃ x, v = .number x := by
          cases v with
          | number x =>
              exact ⟨x, rfl⟩
          | _ =>
              cases kind
        -- It had ended before, or was in progress as the whole document, and neither is the case.
        rcases complete_or_number_of_takes (takes_of_feed taken) rfl with before | inNumber
        · rw [t.shows_branch.isComplete, before] at incomplete
          cases incomplete
        · exact number inNumber

/-- Whole runs agree, each byte under its own options. -/
theorem feedEach_branch (t : Tree) (steps : List (Options × UInt8)) :
    t.branch.feedEach steps = (t.feedEach steps).map branch := by
  -- Each step has its own options, so the induction is on the pairs.
  induction steps generalizing t with
  | nil =>
      rfl
  | cons first rest ih =>
      rcases first with ⟨o, b⟩
      rw [Branch.feedEach, feedEach, feed_branch]
      cases t.feed o b with
      | error fault =>
          rfl
      | ok result =>
          exact ih result.1

/-- From the start both forms go the same way. -/
theorem feedEach_fresh (steps : List (Options × UInt8)) :
    Branch.fresh.feedEach steps = (empty.feedEach steps).map branch :=
  feedEach_branch empty steps

end Tree

end JsonStream
