import JsonStream.Branch.Text
import JsonStream.Proofs.Branch.Agreement

/-!
# Both forms of a tree have the same texts

What is written of a value in progress is what its outline shows, so the texts read off from the outside in are
those of the tree.

- `Branch.Exhibits`, `Tree.exhibits_branch` — the outline of a value in progress
- `Tree.display_branch`, `Tree.exchange_branch`, `Tree.dump_branch` — the three texts
-/

namespace JsonStream

open Text (Dialect nodeTerm)

/-! ## Outlines -/

namespace Branch

structure Exhibits (n : Branch) (outline : Outline) : Prop where
  kind : n.kind = outline.kind?
  name : n.name = none
  number : ∀ x, outline = .number x → n.number = x
  text : ∀ text, outline = .string text → n.text = text
  children : n.children = outline.children.map fun (name, v) => v.branch name

variable {n : Branch} {outline : Outline}

/-- Where an outline of elements is exhibited, these are the children. -/
theorem Exhibits.items {items : List Value} (exhibits : n.Exhibits (.array items)) :
    n.children = Value.branchItems items := by
  rw [exhibits.children, Value.branchItems_eq_map, Outline.children, List.map_map]
  rfl

theorem Exhibits.members {members : List (Bytes × Value)} (exhibits : n.Exhibits (.object members)) :
    n.children = Value.branchMembers members := by
  rw [exhibits.children, Value.branchMembers_eq_map, Outline.children, List.map_map]
  rfl

theorem exhibits_array (items : Array Value) (stage : Stage) (active : Option Branch) :
    (array none items stage active).Exhibits (.array items.toList) :=
  ⟨rfl, rfl, nofun, nofun, (outlined_array none items stage active).children⟩

theorem exhibits_object (members : Array (Bytes × Value)) (stage : Stage) (active : Option Branch) :
    (object none members stage active).Exhibits (.object members.toList) :=
  ⟨rfl, rfl, nofun, nofun, (outlined_object none members stage active).children⟩

end Branch

theorem Value.exhibits_branch (v : Value) : (v.branch none).Exhibits v.outline := by
  cases v with
  | number x =>
      exact ⟨rfl, rfl, fun _ same => Outline.number.inj same, nofun, rfl⟩
  | string text =>
      exact ⟨rfl, rfl, nofun, fun _ same => Outline.string.inj same, rfl⟩
  | array items =>
      exact ⟨rfl, rfl, nofun, nofun, (Branch.exhibits_array items.toArray .element none).children⟩
  | object members =>
      exact ⟨rfl, rfl, nofun, nofun, (Branch.exhibits_object members.toArray .name none).children⟩
  | _ =>
      exact ⟨rfl, rfl, nofun, nofun, rfl⟩

/-- Without frames, what is compared is what shows of the focus. -/
theorem Focus.exhibits_branch (focus : Focus) : (focus.branch none).Exhibits focus.outline := by
  cases focus with
  | number literal =>
      exact ⟨rfl, rfl, fun _ same => Outline.number.inj same, nofun, rfl⟩
  | string role text | escape role text =>
      cases role with
      | value =>
          exact ⟨rfl, rfl, nofun, fun _ same => Outline.string.inj same, rfl⟩
      | name members =>
          exact Branch.exhibits_object members _ _
  | element items =>
      exact Branch.exhibits_array items _ _
  | name members | colon members called =>
      exact Branch.exhibits_object members _ _
  | _ =>
      exact ⟨rfl, rfl, nofun, nofun, rfl⟩

/-- A value inside frames shows what the outermost frame shows, and itself if there is none. -/
theorem Frame.exhibits_plug {n : Branch} {outline : Outline} {outer : List Frame}
    (inside : outer = [] → n.Exhibits outline) :
    (plug outer n).Exhibits ((outer.getLast?.map Frame.outline).getD outline) := by
  cases last : outer.getLast? with
  | none =>
      obtain rfl := List.getLast?_eq_none_iff.1 last
      exact inside rfl
  | some f =>
      rcases exists_plug_eq_around (n := n) last with ⟨child, same⟩
      rw [same]
      cases f with
      | array items =>
          exact Branch.exhibits_array items _ _
      | object members called =>
          exact Branch.exhibits_object members _ _

namespace Tree

/-- What is compared of the branch of a tree is the outline of the tree. -/
theorem exhibits_branch (t : Tree) : t.branch.Exhibits t.outline := by
  cases t with
  | settled place =>
      cases place with
      | document v =>
          exact v.exhibits_branch
      | element outer items =>
          exact Frame.exhibits_plug fun empty => empty ▸ Branch.exhibits_array items _ _
      | member outer members =>
          exact Frame.exhibits_plug fun empty => empty ▸ Branch.exhibits_object members _ _
  | live outer focus =>
      exact Frame.exhibits_plug fun empty => empty ▸ focus.exhibits_branch

end Tree

/-! ## JSON -/

namespace Branch

/-- Of complete values that are no containers, `scalar` gives the value itself. -/
def ReadsScalars (scalar : Branch → Value) : Prop :=
  ∀ (v : Value) (name : Option Bytes), v.kind.isContainer = false → scalar (v.branch name) = v

/-- Plain text writes complete values that are no containers as they are. -/
theorem readsScalars_visibleScalar : ReadsScalars visibleScalar := by
  intro v name notContainer
  cases v with
  | array items | object members =>
      cases notContainer
  | _ =>
      rfl

/-- Exchange text writes complete values that are no containers as they are. -/
theorem readsScalars_filledScalar : ReadsScalars filledScalar := by
  intro v name notContainer
  cases v with
  | array items | object members =>
      cases notContainer
  | bool b =>
      cases b <;> rfl
  | _ =>
      rfl

end Branch

/-- What an outline is written as: a container with its children, and anything else as given. -/
def Outline.written (scalar : Value) : Outline → Value
  | array items => .array items
  | object members => .object members
  | _ => scalar

namespace Value

variable {scalar : Branch → Value}

mutual

/-- A complete value is written from the outside in as it is by the dialect. Induction on the value, with its
rows. -/
theorem writeWith_branch (d : Dialect) (reads : Branch.ReadsScalars scalar) :
    (v : Value) → ∀ name, (v.branch name).writeWith d scalar = d.write v
  | null, name => congrArg d.write (reads .null name rfl)
  | bool b, name => congrArg d.write (reads (.bool b) name rfl)
  | number x, name => congrArg d.write (reads (.number x) name rfl)
  | string text, name => congrArg d.write (reads (.string text) name rfl)
  | array items, name => by
      rw [branch, Branch.writeWith, writeItems_branchItems d reads items, Dialect.write]
  | object members, name => by
      rw [branch, Branch.writeWith, writeMembers_branchMembers d reads members, Dialect.write]

theorem writeItems_branchItems (d : Dialect) (reads : Branch.ReadsScalars scalar) :
    (items : List Value) → ∀ lead, Branch.writeItems d scalar lead (branchItems items) = d.writeItems lead items
  | [], lead => rfl
  | v :: rest, lead => by
      rw [branchItems, Branch.writeItems, writeWith_branch d reads v, writeItems_branchItems d reads rest,
        Dialect.writeItems]

theorem writeMembers_branchMembers (d : Dialect) (reads : Branch.ReadsScalars scalar) :
    (members : List (Bytes × Value)) →
      ∀ lead, Branch.writeMembers d scalar lead (branchMembers members) = d.writeMembers lead members
  | [], lead => rfl
  | (name, v) :: rest, lead => by
      have called : (v.branch (some name)).name = some name := by
        cases v <;> rfl
      rw [branchMembers, Branch.writeMembers, writeWith_branch d reads v, writeMembers_branchMembers d reads rest,
        called, Dialect.writeMembers]
      rfl

end

end Value

namespace Branch

variable {n : Branch} {outline : Outline} {scalar : Branch → Value}

/-- A value is written as its outline. -/
theorem Exhibits.writeWith_eq (exhibits : n.Exhibits outline) (d : Dialect) (reads : ReadsScalars scalar) :
    n.writeWith d scalar = d.write (outline.written (scalar n)) := by
  rcases n with ⟨kind, number, text, name, children, stage, token, active⟩
  obtain rfl : kind = outline.kind? := exhibits.kind
  cases outline with
  | array items =>
      obtain rfl : children = _ := exhibits.items
      rw [Outline.kind?, writeWith, Value.writeItems_branchItems d reads, Outline.written, Dialect.write]
  | object members =>
      obtain rfl : children = _ := exhibits.members
      rw [Outline.kind?, writeWith, Value.writeMembers_branchMembers d reads, Outline.written, Dialect.write]
  | _ =>
      rfl

/-- What exchange text writes is the value that fills the outline. -/
theorem Exhibits.written_filledScalar (exhibits : n.Exhibits outline) :
    outline.written n.filledScalar = outline.filled := by
  rw [filledScalar, exhibits.kind]
  cases outline with
  | number x =>
      rw [exhibits.number x rfl]
      rfl
  | string text =>
      rw [exhibits.text text rfl]
      rfl
  | _ =>
      rfl

end Branch

namespace Tree

/-- What plain text writes is the value that is visible of the tree. -/
theorem written_visibleScalar (t : Tree) : t.outline.written t.branch.visibleScalar = t.visible := by
  -- A complete value is visible as a whole. Of any other only a container is visible at all.
  cases complete : t.value? with
  | some v =>
      obtain rfl := value?_eq_some_iff.1 complete
      cases v <;> rfl
  | none =>
      rcases outlined_of_incomplete complete with ⟨stage, -, outlined⟩
      have incomplete : t.branch.isComplete = false := by
        rw [Branch.isComplete, outlined.stage, Option.isNone_some]
      have unseen : t.branch.visibleScalar = .null := by
        rw [Branch.visibleScalar, outlined.text, incomplete]
        split <;> simp_all
      rw [unseen, visible, complete]
      cases t.outline <;> rfl

/-- Plain JSON is the same from the outside in. -/
theorem display_branch (t : Tree) : t.branch.display = t.display := by
  rw [Branch.display, t.exhibits_branch.writeWith_eq _ Branch.readsScalars_visibleScalar, written_visibleScalar,
    display]

/-- JSON for data exchange is the same, too. -/
theorem exchange_branch (t : Tree) : t.branch.exchange = t.exchange := by
  rw [Branch.exchange, t.exhibits_branch.writeWith_eq _ Branch.readsScalars_filledScalar,
    t.exhibits_branch.written_filledScalar, exchange, filled]

/-- A complete tree is written as the value that it is. -/
theorem display_ofValue (v : Value) : (ofValue v).branch.display = Dialect.plain.write v :=
  (ofValue v).display_branch

/-- The exchange text of a complete value. -/
theorem exchange_ofValue (v : Value) : (ofValue v).branch.exchange = Dialect.exchange.write v := by
  rw [exchange_branch]
  exact congrArg Dialect.exchange.write v.filled_outline

end Tree

/-! ## Dumps -/

namespace Value

mutual

/-- The dump of a complete value, from the outside in. Induction on the value, with its rows. -/
theorem term_branch : (v : Value) → ∀ name, (v.branch name).term = Text.valueTerm name v
  | null, _ | bool _, _ | number _, _ | string _, _ => rfl
  | array items, name => by
      rw [branch, Branch.term, terms_branchItems items, Text.valueTerm]
  | object members, name => by
      rw [branch, Branch.term, terms_branchMembers members, Text.valueTerm]

theorem terms_branchItems : (items : List Value) → Branch.terms (branchItems items) = Text.itemTerms items
  | [] => rfl
  | v :: rest => by
      rw [branchItems, Branch.terms, term_branch v, terms_branchItems rest, Text.itemTerms]

theorem terms_branchMembers :
    (members : List (Bytes × Value)) → Branch.terms (branchMembers members) = Text.memberTerms members
  | [] => rfl
  | (name, v) :: rest => by
      rw [branchMembers, Branch.terms, term_branch v, terms_branchMembers rest, Text.memberTerms]

end

end Value

/-- A dump has the kind, the payload of the outline, and the stage. -/
theorem Branch.Exhibits.term_eq {n : Branch} {outline : Outline} (exhibits : n.Exhibits outline) :
    n.term = nodeTerm none outline.kind? (Text.payloadFields outline) n.stage := by
  rcases n with ⟨kind, number, text, name, children, stage, token, active⟩
  obtain rfl : kind = outline.kind? := exhibits.kind
  obtain rfl : name = none := exhibits.name
  cases outline with
  | number x =>
      obtain rfl : number = x := exhibits.number x rfl
      rfl
  | string payload =>
      obtain rfl : text = payload := exhibits.text payload rfl
      rfl
  | array items =>
      obtain rfl : children = _ := exhibits.items
      rw [Outline.kind?, term, Value.terms_branchItems, Text.payloadFields]
  | object members =>
      obtain rfl : children = _ := exhibits.members
      rw [Outline.kind?, term, Value.terms_branchMembers, Text.payloadFields]
  | _ =>
      rfl

/-- The dump of a tree is that of its root. -/
theorem Tree.dump_branch (t : Tree) : t.branch.dump = t.dump := by
  rw [Branch.dump, t.exhibits_branch.term_eq, t.shows_branch.stage, dump, Text.treeTerm, kind?]

end JsonStream
