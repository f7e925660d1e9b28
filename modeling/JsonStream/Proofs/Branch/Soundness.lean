import JsonStream.Proofs.Branch.Agreement

/-!
# What holds of every value in a tree

A value in progress has room for more than it may hold: a text next to a number, a name in an array, a
child in progress without a stage that waits for one. `Branch.Sound` says what does not happen, of one
value with its children; it holds of every part of every tree that bytes can lead to, also when each byte
comes under options of its own.

- `Branch.Sound`, `Branch.Answers` — the invariant, and what the views make of it
- `Tree.Placed` — the little that a tree has to keep up for that
- `Tree.allSound_branch` — from the one to the other
- `Tree.sound_of_feedEach` — every run
-/

namespace JsonStream

/-! ## The invariant -/

def Stage.kind? : Stage → Option Kind
  | start => none
  | keyword w => some (.keyword w)
  | number => some .number
  | string | escape => some .string
  | element | elementEnd => some (.container .array)
  | name | nameEnd | member | memberEnd => some (.container .object)

namespace Branch

inductive PartOf : Branch → Branch → Prop
  | refl (n : Branch) : PartOf n n
  | child {p c n : Branch} (among : c ∈ n.children) (inside : PartOf p c) : PartOf p n
  | active {p c n : Branch} (current : n.active = some c) (inside : PartOf p c) : PartOf p n

/-- Which child in progress goes with a stage. -/
inductive Awaits : Option Stage → Option Branch → Prop
  -- Most stages have none, and an element or a name need not have begun.
  | none {stage : Option Stage} (notNameEnd : stage ≠ some .nameEnd) (notMember : stage ≠ some .member) :
      Awaits stage none
  | name {child : Branch} (unnamed : child.name = none)
      (string : child.stage = some .string ∨ child.stage = some .escape) :
      Awaits (some .name) (some child)
  | nameEnd (name : Bytes) : Awaits (some .nameEnd) (some { fresh with name := some name })
  | member {child : Branch} (named : child.name ≠ none) (live : child.stage ≠ none) :
      Awaits (some .member) (some child)
  | element {child : Branch} (unnamed : child.name = none) (live : child.stage ≠ none)
      (begun : child.stage ≠ some .start) : Awaits (some .element) (some child)

/-- What holds of a value with its children. -/
structure Sound (n : Branch) : Prop where
  children_complete : ∀ c ∈ n.children, c.isComplete = true
  kind_of_complete : n.isComplete = true → n.kind ≠ none
  token_of_complete : n.isComplete = true → n.token = #[]
  active_of_complete : n.isComplete = true → n.active = none
  container : n.children ≠ [] ∨ n.active ≠ none → ∃ c, n.kind = some (.container c)
  named : n.kind = some (.container .object) → ∀ c ∈ n.children, c.name ≠ none
  unnamed : n.kind = some (.container .array) → ∀ c ∈ n.children, c.name = none
  text_iff : n.text ≠ none ↔ n.kind = some .string ∧ n.isComplete = true
  number_of_ne : n.number ≠ .zero false → n.kind = some .number ∧ n.isComplete = true
  number_finite : n.number.rank < Binary64.rankLimit
  kind_eq : ∀ stage, n.stage = some stage → n.kind = stage.kind?
  keyword_token : ∀ w, n.stage = some (.keyword w) →
    n.token ≠ #[] ∧ n.token.toList <+: w.spelling ∧ n.token.toList ≠ w.spelling
  stage_of_token : n.token ≠ #[] → n.stage = some .string ∨ n.stage = some .escape ∨
    n.stage = some .number ∨ ∃ w, n.stage = some (.keyword w)
  awaits : Awaits n.stage n.active

/-- The views answer for complete values of their kind, and for no others. -/
structure Answers (n : Branch) : Prop where
  number?_iff : n.number? ≠ none ↔ n.kind = some .number ∧ n.isComplete = true
  text?_iff : n.text? ≠ none ↔ n.kind = some .string ∧ n.isComplete = true
  bool?_iff : ∀ b, n.bool? = some b ↔ n.kind = some (.keyword (.bool b)) ∧ n.isComplete = true
  isNull_iff : n.isNull = true ↔ n.kind = some (.keyword .null) ∧ n.isComplete = true

def AllSound (n : Branch) : Prop :=
  ∀ part, PartOf part n → part.Sound

variable {n c : Branch} {kind : Kind} {name : Option Bytes} {stage : Stage} {token : Array UInt8}
  {active : Option Branch}

/-- The views of a sound value answer as its kind and its stage say. -/
theorem Sound.answers (sound : n.Sound) : n.Answers := by
  refine ⟨?_, ?_, ?_, ?_⟩
  · rw [number?]
    by_cases complete : n.kind = some .number ∧ n.isComplete = true
    · simp [complete]
    · simp [complete]
  · rw [text?]
    by_cases string : n.kind = some .string
    · rw [string]
      simpa [string] using sound.text_iff
    · simp [string]
  · intro b
    rw [bool?]
    -- Only the two keywords that are truth values answer here.
    cases n.kind with
    | none =>
        simp
    | some kind =>
        cases kind with
        | keyword w =>
            cases w with
            | null =>
                simp
            | bool c =>
                cases n.isComplete <;> simp
        | _ =>
            simp
  · simp [isNull]

/-- A value is sound all through if it is sound itself and its parts are sound all through. -/
theorem allSound_of (self : n.Sound) (children : ∀ c ∈ n.children, c.AllSound)
    (current : ∀ c, n.active = some c → c.AllSound) : n.AllSound := by
  intro part partOf
  cases partOf with
  | refl =>
      exact self
  | child among inside =>
      exact children _ among part inside
  | active isCurrent inside =>
      exact current _ isCurrent part inside

/-! ## Values in progress -/

/-- A value without children, whose kind and token are those of its stage. -/
theorem allSound_leaf {kind : Option Kind} (kind_eq : kind = stage.kind?)
    (awaits : Awaits (some stage) none)
    (keyword_token : ∀ w, stage = .keyword w →
      token ≠ #[] ∧ token.toList <+: w.spelling ∧ token.toList ≠ w.spelling)
    (stage_of_token : token ≠ #[] →
      stage = .string ∨ stage = .escape ∨ stage = .number ∨ ∃ w, stage = .keyword w) :
    ({ kind, name, stage := some stage, token } : Branch).AllSound := by
  refine allSound_of ?_ nofun nofun
  exact {
    children_complete := nofun
    kind_of_complete := nofun
    token_of_complete := nofun
    active_of_complete := nofun
    container := by simp
    named := nofun
    unnamed := nofun
    text_iff := by simp [isComplete]
    number_of_ne := fun ne => absurd rfl ne
    number_finite := Binary64.rank_lt _
    kind_eq := by
      intro s same
      cases same
      exact kind_eq
    keyword_token := by simpa using keyword_token
    stage_of_token := by simpa using stage_of_token
    awaits := awaits }

theorem allSound_fresh (name : Option Bytes) : ({ name } : Branch).AllSound :=
  allSound_leaf rfl (.none nofun nofun) nofun fun ne => absurd rfl ne

theorem allSound_string (name : Option Bytes) (text : Array UInt8) :
    (scalar name .string .string text).AllSound :=
  allSound_leaf rfl (.none nofun nofun) nofun fun _ => .inl rfl

theorem allSound_escape (name : Option Bytes) (text : Array UInt8) :
    (scalar name .string .escape text).AllSound :=
  allSound_leaf rfl (.none nofun nofun) nofun fun _ => .inr (.inl rfl)

theorem allSound_number (name : Option Bytes) (literal : Array UInt8) :
    (scalar name .number .number literal).AllSound :=
  allSound_leaf rfl (.none nofun nofun) nofun fun _ => .inr (.inr (.inl rfl))

/-- A keyword in progress is sound while some letters have come and some are missing. -/
theorem allSound_keyword (name : Option Bytes) {w : Keyword} {seen : Nat} (begun : 0 < seen)
    (more : seen < w.spelling.length) :
    (scalar name (.keyword w) (.keyword w) (w.spelling.take seen).toArray).AllSound := by
  refine allSound_leaf rfl (.none nofun nofun) ?_ fun _ => .inr (.inr (.inr ⟨w, rfl⟩))
  intro v same
  cases same
  -- The letters that have come are as many as have been counted.
  have length : (w.spelling.take seen).length = seen := List.length_take_of_le more.le
  refine ⟨?_, ?_, ?_⟩
  · intro empty
    have := congrArg Array.size empty
    rw [List.size_toArray, length] at this
    exact absurd this begun.ne'
  · exact List.take_prefix _ _
  · intro whole
    have := congrArg List.length whole
    rw [length] at this
    exact absurd this more.ne

/-! ## Complete values and containers -/

/-- A complete value without children. -/
theorem allSound_complete {number : Binary64} {text : Option Bytes}
    (text_iff : text ≠ none ↔ kind = .string) (number_of_ne : number ≠ .zero false → kind = .number) :
    ({ kind := some kind, number, text, name, stage := none } : Branch).AllSound := by
  refine allSound_of ?_ nofun nofun
  exact {
    children_complete := nofun
    kind_of_complete := nofun
    token_of_complete := fun _ => rfl
    active_of_complete := fun _ => rfl
    container := by simp
    named := nofun
    unnamed := nofun
    text_iff := by simpa [isComplete] using text_iff
    number_of_ne := fun ne => ⟨congrArg some (number_of_ne ne), rfl⟩
    number_finite := number.rank_lt
    kind_eq := nofun
    keyword_token := nofun
    stage_of_token := fun ne => absurd rfl ne
    awaits := .none nofun nofun }

/-- A container, complete or in progress, whose children are sound. -/
theorem allSound_container {container : Container} {children : List Branch} {stage : Option Stage}
    (stage_kind : ∀ s, stage = some s → s.kind? = some (.container container))
    (awaits : Awaits stage active) (complete : ∀ c ∈ children, c.isComplete = true)
    (named : container = .object → ∀ c ∈ children, c.name ≠ none)
    (unnamed : container = .array → ∀ c ∈ children, c.name = none)
    (all : ∀ c ∈ children, c.AllSound) (current : ∀ c, active = some c → c.AllSound) :
    ({ kind := some (.container container), name, children, stage, active } : Branch).AllSound := by
  refine allSound_of ?_ all current
  exact {
    children_complete := complete
    kind_of_complete := nofun
    token_of_complete := fun _ => rfl
    active_of_complete := by
      intro ended
      cases awaits with
      | none notNameEnd notMember =>
          rfl
      | _ =>
          cases ended
    container := fun _ => ⟨container, rfl⟩
    named := fun same => named (by cases same; rfl)
    unnamed := fun same => unnamed (by cases same; rfl)
    text_iff := by simp
    number_of_ne := fun ne => absurd rfl ne
    number_finite := Binary64.rank_lt _
    kind_eq := fun s same => (stage_kind s same).symm
    keyword_token := by
      intro w same
      cases stage_kind _ same
    stage_of_token := fun ne => absurd rfl ne
    awaits := awaits }

end Branch

namespace Value

theorem isComplete_branch (v : Value) (name : Option Bytes) : (v.branch name).isComplete = true := by
  cases v <;> rfl

theorem name_branch (v : Value) (name : Option Bytes) : (v.branch name).name = name := by
  cases v <;> rfl

end Value

namespace Branch

variable {name : Option Bytes} {active : Option Branch}

/-- An array is sound all through if its elements and its child in progress are. -/
theorem allSound_arrayOf {items : List Value} {stage : Option Stage}
    (stage_kind : ∀ s, stage = some s → s.kind? = some (.container .array))
    (awaits : Awaits stage active) (all : ∀ v ∈ items, (v.branch none).AllSound)
    (current : ∀ c, active = some c → c.AllSound) :
    ({ kind := some (.container .array), name, children := Value.branchItems items, stage, active } :
      Branch).AllSound := by
  rw [Value.branchItems_eq_map]
  refine allSound_container stage_kind awaits ?_ nofun ?_ ?_ current
  · intro c among
    rcases List.mem_map.1 among with ⟨v, -, rfl⟩
    exact v.isComplete_branch none
  · intro _ c among
    rcases List.mem_map.1 among with ⟨v, -, rfl⟩
    exact v.name_branch none
  · intro c among
    rcases List.mem_map.1 among with ⟨v, isItem, rfl⟩
    exact all v isItem

theorem allSound_objectOf {members : List (Bytes × Value)} {stage : Option Stage}
    (stage_kind : ∀ s, stage = some s → s.kind? = some (.container .object))
    (awaits : Awaits stage active) (all : ∀ member ∈ members, (member.2.branch (some member.1)).AllSound)
    (current : ∀ c, active = some c → c.AllSound) :
    ({ kind := some (.container .object), name, children := Value.branchMembers members, stage, active } :
      Branch).AllSound := by
  rw [Value.branchMembers_eq_map]
  refine allSound_container stage_kind awaits ?_ ?_ nofun ?_ current
  · intro c among
    rcases List.mem_map.1 among with ⟨⟨called, v⟩, -, rfl⟩
    exact v.isComplete_branch (some called)
  · intro _ c among
    rcases List.mem_map.1 among with ⟨⟨called, v⟩, -, rfl⟩
    rw [v.name_branch]
    nofun
  · intro c among
    rcases List.mem_map.1 among with ⟨member, isMember, rfl⟩
    exact all member isMember

end Branch

mutual

/-- A complete value and everything inside it. -/
theorem Value.allSound_branch (name : Option Bytes) : (v : Value) → (v.branch name).AllSound
  | .null => Branch.allSound_complete (by simp) (fun ne => absurd rfl ne)
  | .bool b => Branch.allSound_complete (by simp) (fun ne => absurd rfl ne)
  | .number x => Branch.allSound_complete (by simp) (fun _ => rfl)
  | .string text => Branch.allSound_complete (by simp) (fun ne => absurd rfl ne)
  | .array items => Branch.allSound_arrayOf nofun (.none nofun nofun) (allSound_items items) nofun
  | .object members => Branch.allSound_objectOf nofun (.none nofun nofun) (allSound_members members) nofun

/-- Elements that have ended are sound all through. -/
theorem Value.allSound_items : (items : List Value) → ∀ v ∈ items, (v.branch none).AllSound
  | [] => nofun
  | v :: rest => List.forall_mem_cons.2 ⟨v.allSound_branch none, allSound_items rest⟩

theorem Value.allSound_members : (members : List (Bytes × Value)) →
    ∀ member ∈ members, (member.2.branch (some member.1)).AllSound
  | [] => nofun
  | (name, v) :: rest => List.forall_mem_cons.2 ⟨v.allSound_branch (some name), allSound_members rest⟩

end

namespace Branch

variable {stage : Stage} {active : Option Branch}

/-- An array in progress. -/
theorem allSound_array (name : Option Bytes) (items : Array Value)
    (stage_kind : stage.kind? = some (.container .array)) (awaits : Awaits (some stage) active)
    (current : ∀ c, active = some c → c.AllSound) : (array name items stage active).AllSound :=
  allSound_arrayOf (by rintro s ⟨⟩; exact stage_kind) awaits (fun v _ => v.allSound_branch none) current

/-- An object in progress. -/
theorem allSound_object (name : Option Bytes) (members : Array (Bytes × Value))
    (stage_kind : stage.kind? = some (.container .object)) (awaits : Awaits (some stage) active)
    (current : ∀ c, active = some c → c.AllSound) : (object name members stage active).AllSound :=
  allSound_objectOf (by rintro s ⟨⟩; exact stage_kind) awaits
    (fun member _ => member.2.allSound_branch (some member.1)) current

end Branch

/-! ## Trees -/

/-- A value may be in progress inside some frames: it goes by the name that they give it, and if it is an
element, something of it has come. -/
structure Frame.Holds (outer : List Frame) (n : Branch) : Prop where
  all : n.AllSound
  live : n.stage ≠ none
  name_eq : n.name = nameInside outer
  begun : ∀ items rest, outer = .array items :: rest → n.stage ≠ some .start

/-- What a frame holds is a child that its stage awaits. -/
theorem Frame.Holds.awaits {f : Frame} {outer : List Frame} {n : Branch} (holds : Holds (f :: outer) n) :
    Branch.Awaits (some f.stage) (some n) := by
  cases f with
  | array items =>
      exact .element holds.name_eq holds.live (holds.begun items outer rfl)
  | object members called =>
      refine .member ?_ holds.live
      rw [holds.name_eq]
      nofun

/-- The containers around a value in progress are sound if it is. -/
theorem Frame.Holds.allSound_plug {outer : List Frame} {n : Branch} (holds : Holds outer n) :
    (plug outer n).AllSound := by
  induction outer generalizing n with
  | nil =>
      exact holds.all
  | cons f outer ih =>
      -- A container with a child in progress may itself be in progress in the next frame.
      apply ih
      have current : ∀ c, some n = some c → c.AllSound := by
        rintro c ⟨⟩
        exact holds.all
      cases f with
      | array items =>
          exact ⟨Branch.allSound_array _ items rfl holds.awaits current, nofun, rfl, nofun⟩
      | object members called =>
          exact ⟨Branch.allSound_object _ members rfl holds.awaits current, nofun, rfl, nofun⟩

/-- The root has no name, whatever the names inside. -/
theorem Frame.name_plug {outer : List Frame} {n : Branch} (name_eq : n.name = nameInside outer) :
    (plug outer n).name = none := by
  induction outer generalizing n with
  | nil =>
      exact name_eq
  | cons f outer ih =>
      exact ih (by cases f <;> rfl)

/-- What a tree keeps up from byte to byte: a keyword in progress has begun and is not at its end, and an
element that has not begun has no place of its own inside its array. -/
def Tree.Placed : Tree → Prop
  | live _ (.keyword w seen) => 0 < seen ∧ seen < w.spelling.length
  | live (.array _ :: _) .blank => False
  | _ => True

namespace Focus

variable {outer : List Frame} {focus : Focus}

/-- What is inside the innermost frame may be in progress there. -/
theorem holds (placed : (Tree.live outer focus).Placed) :
    Frame.Holds outer (focus.branch (Frame.nameInside outer)) := by
  cases focus with
  | blank =>
      refine ⟨Branch.allSound_fresh _, nofun, rfl, ?_⟩
      -- A value that has not begun has no place of its own in an array.
      rintro items rest rfl
      exact placed.elim
  | keyword w seen =>
      obtain ⟨begun, more⟩ : 0 < seen ∧ seen < w.spelling.length := placed
      exact ⟨Branch.allSound_keyword _ begun more, nofun, rfl, nofun⟩
  | number literal =>
      exact ⟨Branch.allSound_number _ literal, nofun, rfl, nofun⟩
  | string role text =>
      cases role with
      | value =>
          exact ⟨Branch.allSound_string _ text, nofun, rfl, nofun⟩
      | name members =>
          refine ⟨Branch.allSound_object _ members rfl (.name rfl (.inl rfl)) ?_, nofun, rfl, nofun⟩
          rintro c ⟨⟩
          exact Branch.allSound_string none text
  | escape role text =>
      cases role with
      | value =>
          exact ⟨Branch.allSound_escape _ text, nofun, rfl, nofun⟩
      | name members =>
          refine ⟨Branch.allSound_object _ members rfl (.name rfl (.inr rfl)) ?_, nofun, rfl, nofun⟩
          rintro c ⟨⟩
          exact Branch.allSound_escape none text
  | element items =>
      exact ⟨Branch.allSound_array _ items rfl (.none nofun nofun) nofun, nofun, rfl, nofun⟩
  | name members =>
      exact ⟨Branch.allSound_object _ members rfl (.none nofun nofun) nofun, nofun, rfl, nofun⟩
  | colon members called =>
      refine ⟨Branch.allSound_object _ members rfl (.nameEnd called) ?_, nofun, rfl, nofun⟩
      rintro c ⟨⟩
      exact Branch.allSound_fresh (some called)

end Focus

namespace Tree

variable {o : Options} {t u : Tree} {b : UInt8} {events : List Event} {outer : List Frame}

/-- The branch of a tree that sessions can come to is sound all through. -/
theorem allSound_branch (placed : t.Placed) : t.branch.AllSound := by
  cases t with
  | settled place =>
      cases place with
      | document v =>
          exact v.allSound_branch none
      | element outer items =>
          have inside : (Branch.array (Frame.nameInside outer) items .elementEnd none).AllSound :=
            Branch.allSound_array _ items rfl (.none nofun nofun) nofun
          exact Frame.Holds.allSound_plug ⟨inside, nofun, rfl, nofun⟩
      | member outer members =>
          have inside : (Branch.object (Frame.nameInside outer) members .memberEnd none).AllSound :=
            Branch.allSound_object _ members rfl (.none nofun nofun) nofun
          exact Frame.Holds.allSound_plug ⟨inside, nofun, rfl, nofun⟩
  | live outer focus =>
      exact (Focus.holds placed).allSound_plug

/-- A document has no name. -/
theorem name_branch (t : Tree) : t.branch.name = none := by
  cases t with
  | settled place =>
      cases place with
      | document v =>
          exact v.name_branch none
      | element outer items =>
          exact Frame.name_plug rfl
      | member outer members =>
          exact Frame.name_plug rfl
  | live outer focus =>
      apply Frame.name_plug
      cases focus with
      | string role text =>
          cases role <;> rfl
      | escape role text =>
          cases role <;> rfl
      | _ =>
          rfl

theorem placed_of_begins (begins : Begins o outer b u events) : u.Placed := by
  cases begins with
  | container c room =>
      cases c <;> trivial
  | keyword word first =>
      exact ⟨Nat.one_pos, word.one_lt_length⟩
  | _ =>
      trivial

theorem placed_of_settled {s : Settled} (takes : s.Takes o b u events) : u.Placed := by
  cases takes <;> trivial

/-- One byte keeps a tree in a place that sessions can come to. -/
theorem placed_of_takes (placed : t.Placed) (takes : Takes o t b u events) : u.Placed := by
  -- Only the rules for keywords and for beginnings lead to places that ask for something.
  cases takes with
  | settled rest =>
      exact placed_of_settled rest
  | blankSpace space =>
      exact placed
  | blankBegins begins =>
      exact placed_of_begins begins
  | elementBegins begins =>
      exact placed_of_begins begins
  | keywordNext next more =>
      rcases placed with ⟨begun, within⟩
      exact ⟨by omega, by omega⟩
  | numberEnd ends value rest =>
      exact placed_of_settled rest
  | stringEnd =>
      rename_i role text
      cases role <;> trivial
  | _ =>
      trivial

/-- So does a run, each byte under its own options. -/
theorem placed_of_feedEach {steps : List (Options × UInt8)} (run : empty.feedEach steps = .ok t) :
    t.Placed :=
  feedEach_induction (fun placed taken => placed_of_takes placed (takes_of_feed taken)) (by trivial) run

/-- Whatever bytes a tree has taken, and under whatever options each of them: the values in it, held from
the outside in, have taken the same bytes, show the same, and are sound everywhere. -/
theorem sound_of_feedEach {steps : List (Options × UInt8)} (run : empty.feedEach steps = .ok t) :
    Branch.fresh.feedEach steps = .ok t.branch ∧ t.branch.Shows t ∧ t.branch.name = none ∧
      ∀ part, Branch.PartOf part t.branch → part.Sound ∧ part.Answers := by
  -- The run goes over to the nested form, and the invariant comes from the tree.
  have sameRun : Branch.fresh.feedEach steps = .ok t.branch := by
    have agrees := empty.feedEach_branch steps
    rwa [run] at agrees
  refine ⟨sameRun, t.shows_branch, t.name_branch, ?_⟩
  intro part partOf
  have sound := allSound_branch (placed_of_feedEach run) part partOf
  exact ⟨sound, sound.answers⟩

/-- A member's value is to come, after bytes under four different options. -/
theorem sound_after_name :
    empty.feedEach [({ maxDepth := 1 }, Byte.openBrace), ({ lenientWhitespace := true }, Byte.backspace),
        ({}, Byte.quote), ({ maxTokenLength := some 1 }, Byte.lowerB), ({}, Byte.quote),
        ({}, Byte.colon)] = .ok (live [.object #[] [Byte.lowerB]] .blank) ∧
      ∀ part, Branch.PartOf part (live [.object #[] [Byte.lowerB]] .blank).branch →
        part.Sound ∧ part.Answers := by
  have run : empty.feedEach [({ maxDepth := 1 }, Byte.openBrace),
      ({ lenientWhitespace := true }, Byte.backspace), ({}, Byte.quote),
      ({ maxTokenLength := some 1 }, Byte.lowerB), ({}, Byte.quote), ({}, Byte.colon)] =
        .ok (live [.object #[] [Byte.lowerB]] .blank) := by
    rfl
  exact ⟨run, (sound_of_feedEach run).2.2.2⟩

end Tree

end JsonStream
