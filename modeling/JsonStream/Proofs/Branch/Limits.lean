import JsonStream.Proofs.Branch.Calls

/-!
# Nothing grows beyond the limits

The limits are asked for at two places only, an opening bracket and the next byte of a token. Whatever bytes a
tree has taken, they bound all of it: how deep its containers are, how long its texts, names and tokens are, and
so also how far a byte is handed on.

- `Branch.Confined`, `Branch.Limited` — what is bounded, of one value and of a whole tree
- `Grammar.throughout_of_spells`, `Grammar.Leads.throughout_plug` — values and the containers around them
- `Grammar.throughout_of_reads` — trees
- `Decoder.limited_of_performAll` — decoders, after any operations
-/

namespace JsonStream

open Grammar (Fits)

variable {o : Options} {depth : Nat} {name : Option Bytes} {outer : List Frame}

theorem Keyword.length_spelling_le (w : Keyword) : w.spelling.length ≤ 5 := by
  cases w with
  | null =>
      decide
  | bool c =>
      cases c <;> decide

def NameFits (o : Options) (name : Option Bytes) : Prop :=
  ∀ k, name = some k → Fits o k.length

/-! ## One value with all that is inside -/

namespace Branch

/-- What the limits leave of a value inside `depth` containers. -/
structure Confined (o : Options) (depth : Nat) (n : Branch) : Prop where
  room : ∀ c, n.container? = some c → depth < o.maxDepth
  text : ∀ text, n.text = some text → Fits o text.length
  name : NameFits o n.name
  token : n.stage = some .string ∨ n.stage = some .escape ∨ n.stage = some .number → Fits o n.token.size
  -- The letters of a keyword are not counted against any limit.
  keyword : ∀ w, n.stage = some (.keyword w) → n.token.size < 5

/-- The same holds of everything inside, where each step of an address is one container. -/
def Throughout (o : Options) (depth : Nat) (n : Branch) : Prop :=
  ∀ path p, n.at? path = some p → p.Confined o (depth + path.length)

variable {n : Branch}

/-- A value and its parts, one container further in. -/
theorem throughout_of (self : n.Confined o depth) (parts : ∀ p ∈ n.parts, p.Throughout o (depth + 1)) :
    n.Throughout o depth := by
  intro path p place
  cases path with
  | nil =>
      cases place
      exact self
  | cons i path =>
      rcases Option.bind_eq_some_iff.1 place with ⟨child, part, inside⟩
      have confined := parts child (List.mem_of_getElem? part) path p inside
      rwa [Nat.add_assoc, Nat.add_comm 1] at confined

/-- A value of which nothing has come. -/
theorem throughout_blank (named : NameFits o name) :
    ({ name } : Branch).Throughout o depth := by
  refine throughout_of ⟨nofun, nofun, named, ?_, nofun⟩ nofun
  rintro (h | h | h) <;> cases h

/-- A string or a number in progress. -/
theorem throughout_scalar {kind : Kind} {stage : Stage} {token : Array UInt8} (named : NameFits o name)
    (fits : Fits o token.size) (scalar : kind.isContainer = false) (counted : ∀ w, stage ≠ .keyword w) :
    (Branch.scalar name kind stage token).Throughout o depth := by
  refine throughout_of ⟨?_, nofun, named, fun _ => fits, ?_⟩ nofun
  · intro c container
    cases container?_eq_some_iff.1 container
    cases scalar
  · intro w same
    exact absurd (Option.some.inj same) (counted w)

/-- A keyword in progress. -/
theorem throughout_keyword {w : Keyword} {seen : Nat} (named : NameFits o name)
    (more : seen < w.spelling.length) :
    (Branch.scalar name (.keyword w) (.keyword w) (w.spelling.take seen).toArray).Throughout o depth := by
  refine throughout_of ⟨nofun, nofun, named, ?_, ?_⟩ nofun
  · rintro (h | h | h) <;> cases h
  · intro _ _
    change (w.spelling.take seen).toArray.size < 5
    rw [List.size_toArray, List.length_take_of_le more.le]
    exact Nat.lt_of_lt_of_le more w.length_spelling_le

/-- A container, complete or in progress. -/
theorem throughout_container {c : Container} {children : List Branch} {stage : Option Stage} {active : Option Branch}
    (room : depth < o.maxDepth) (named : NameFits o name)
    (stage_kind : ∀ s, stage = some s → s.kind? = some (.container c))
    (parts : ∀ p ∈ children ++ active.toList, p.Throughout o (depth + 1)) :
    ({ kind := some (.container c), name, children, stage, active } : Branch).Throughout o depth := by
  refine throughout_of ⟨fun _ _ => room, nofun, named, ?_, ?_⟩ parts
  · rintro (h | h | h) <;> cases stage_kind _ h
  · intro w same
    cases stage_kind _ same

/-- A complete value that is no container. -/
theorem throughout_complete {kind : Kind} {number : Binary64} {text : Option Bytes}
    (named : NameFits o name) (fits : ∀ s, text = some s → Fits o s.length)
    (scalar : kind.isContainer = false) :
    ({ kind := some kind, number, text, name, stage := none } : Branch).Throughout o depth := by
  refine throughout_of ⟨?_, fits, named, ?_, nofun⟩ nofun
  · intro c container
    cases container?_eq_some_iff.1 container
    cases scalar
  · rintro (h | h | h) <;> cases h

end Branch

open Branch (Throughout)

def Value.ItemsWithin (o : Options) (depth : Nat) (items : List Value) : Prop :=
  ∀ v ∈ items, (v.branch none).Throughout o depth

def Value.MembersWithin (o : Options) (depth : Nat) (members : List (Bytes × Value)) : Prop :=
  ∀ member ∈ members, (member.2.branch (some member.1)).Throughout o depth

namespace Branch

variable {stage : Option Stage} {active : Option Branch}

/-- An array whose elements are within the limits one container further in. -/
theorem throughout_arrayOf {items : List Value} (room : depth < o.maxDepth)
    (named : NameFits o name)
    (stage_kind : ∀ s, stage = some s → s.kind? = some (.container .array))
    (within : Value.ItemsWithin o (depth + 1) items)
    (current : ∀ p, active = some p → p.Throughout o (depth + 1)) :
    ({ kind := some (.container .array), name, children := Value.branchItems items, stage, active } :
      Branch).Throughout o depth := by
  refine throughout_container room named stage_kind fun p mem => ?_
  rcases List.mem_append.1 mem with among | isCurrent
  · rw [Value.branchItems_eq_map] at among
    rcases List.mem_map.1 among with ⟨v, isItem, rfl⟩
    exact within v isItem
  · exact current p (Option.mem_toList.1 isCurrent)

theorem throughout_objectOf {members : List (Bytes × Value)} (room : depth < o.maxDepth)
    (named : NameFits o name)
    (stage_kind : ∀ s, stage = some s → s.kind? = some (.container .object))
    (within : Value.MembersWithin o (depth + 1) members)
    (current : ∀ p, active = some p → p.Throughout o (depth + 1)) :
    ({ kind := some (.container .object), name, children := Value.branchMembers members, stage, active } :
      Branch).Throughout o depth := by
  refine throughout_container room named stage_kind fun p mem => ?_
  rcases List.mem_append.1 mem with among | isCurrent
  · rw [Value.branchMembers_eq_map] at among
    rcases List.mem_map.1 among with ⟨member, isMember, rfl⟩
    exact within member isMember
  · exact current p (Option.mem_toList.1 isCurrent)

/-- An array in progress. -/
theorem throughout_array {items : Array Value} {stage : Stage} (room : depth < o.maxDepth)
    (named : NameFits o name) (stage_kind : stage.kind? = some (.container .array))
    (within : Value.ItemsWithin o (depth + 1) items.toList)
    (current : ∀ p, active = some p → p.Throughout o (depth + 1)) :
    (Branch.array name items stage active).Throughout o depth :=
  throughout_arrayOf room named (by rintro s ⟨⟩; exact stage_kind) within current

/-- An object in progress. -/
theorem throughout_object {members : Array (Bytes × Value)} {stage : Stage} (room : depth < o.maxDepth)
    (named : NameFits o name) (stage_kind : stage.kind? = some (.container .object))
    (within : Value.MembersWithin o (depth + 1) members.toList)
    (current : ∀ p, active = some p → p.Throughout o (depth + 1)) :
    (Branch.object name members stage active).Throughout o depth :=
  throughout_objectOf room named (by rintro s ⟨⟩; exact stage_kind) within current

end Branch

/-! ## Values that have been read -/

namespace Grammar

open Value (ItemsWithin MembersWithin)

variable {s p : Bytes} {v : Value} {items : List Value} {members : List (Bytes × Value)}

theorem Quoted.nameFits {text : Bytes} (quoted : Quoted o s text) : NameFits o (some text) := by
  cases quoted with
  | intro content fits =>
      rintro k ⟨⟩
      exact fits

mutual

/-- A value that has been read is within the limits wherever it was read. -/
theorem throughout_of_spells {depth : Nat} {s : Bytes} {v : Value} (name : Option Bytes)
    (named : NameFits o name) : Spells o depth s v → (v.branch name).Throughout o depth
  | .keyword word => by
      cases word <;> exact Branch.throughout_complete named nofun rfl
  | .number _ => Branch.throughout_complete named nofun rfl
  | .string quoted => Branch.throughout_complete named quoted.nameFits rfl
  | .emptyArray room _ => Branch.throughout_arrayOf room named nofun nofun nofun
  | .array room elements =>
      Branch.throughout_arrayOf room named nofun (itemsWithin_of_elements elements) nofun
  | .emptyObject room _ => Branch.throughout_objectOf room named nofun nofun nofun
  | .object room inside =>
      Branch.throughout_objectOf room named nofun (membersWithin_of_members inside) nofun

theorem itemsWithin_of_elements {depth : Nat} {s : Bytes} {items : List Value} :
    Elements o depth s items → ItemsWithin o depth items
  | .one _ value _ => List.forall_mem_singleton.2 (throughout_of_spells none nofun value)
  | .more _ value _ others =>
      List.forall_mem_cons.2 ⟨throughout_of_spells none nofun value, itemsWithin_of_elements others⟩

theorem membersWithin_of_members {depth : Nat} {s : Bytes} {members : List (Bytes × Value)} :
    Members o depth s members → MembersWithin o depth members
  | .one _ quoted _ _ value _ =>
      List.forall_mem_singleton.2 (throughout_of_spells _ quoted.nameFits value)
  | .more _ quoted _ _ value _ others =>
      List.forall_mem_cons.2 ⟨throughout_of_spells _ quoted.nameFits value,
        membersWithin_of_members others⟩

end

/-- The elements before the one in progress are within the limits. -/
theorem Row.within (row : Row o depth s items) : ItemsWithin o depth items := by
  induction row with
  | nil =>
      exact nofun
  | snoc row before value after ih =>
      exact List.forall_mem_append.2 ⟨ih, List.forall_mem_singleton.2 (throughout_of_spells none nofun value)⟩

theorem MemberRow.within (row : MemberRow o depth s members) : MembersWithin o depth members := by
  induction row with
  | nil =>
      exact nofun
  | snoc row before quoted beforeColon afterColon value after ih =>
      have last := throughout_of_spells (some _) quoted.nameFits value
      exact List.forall_mem_append.2 ⟨ih, List.forall_mem_singleton.2 last⟩

/-! ## Trees -/

/-- The name of the value in progress was a token within the limit. -/
theorem Leads.nameFits (lead : Leads o outer p) : NameFits o (Frame.nameInside outer) := by
  cases lead with
  | object outside room row blank quoted beforeColon afterColon =>
      exact quoted.nameFits
  | _ =>
      exact nofun

/-- The containers around a value in progress are within the limits if it is. -/
theorem Leads.throughout_plug {n : Branch} (lead : Leads o outer p) (inside : n.Throughout o outer.length) :
    (Frame.plug outer n).Throughout o 0 := by
  -- Each container takes the value in before the next one is put around it.
  induction lead generalizing n with
  | document blank =>
      exact inside
  | array outside room row blank ih =>
      apply ih
      refine Branch.throughout_array room outside.nameFits rfl row.within ?_
      rintro c ⟨⟩
      exact inside
  | object outside room row blank quoted beforeColon afterColon ih =>
      apply ih
      refine Branch.throughout_object room outside.nameFits rfl row.within ?_
      rintro c ⟨⟩
      exact inside

/-- An array whose next element is to come. -/
theorem Leads.throughout_array {items : Array Value} {stage : Stage} (lead : Leads o (.array items :: outer) p)
    (stage_kind : stage.kind? = some (.container .array)) :
    (Frame.plug outer (.array (Frame.nameInside outer) items stage none)).Throughout o 0 := by
  cases lead with
  | array outside room row blank =>
      apply outside.throughout_plug
      exact Branch.throughout_array room outside.nameFits stage_kind row.within nofun

/-- An object whose next name is to come, or has come in part or in full. -/
theorem LeadsToName.throughout_object {members : Array (Bytes × Value)} {stage : Stage} {active : Option Branch}
    (lead : LeadsToName o outer members p) (stage_kind : stage.kind? = some (.container .object))
    (current : ∀ p, active = some p → p.Throughout o (outer.length + 1)) :
    (Frame.plug outer (.object (Frame.nameInside outer) members stage active)).Throughout o 0 := by
  cases lead with
  | intro outside room row blank =>
      apply outside.throughout_plug
      exact Branch.throughout_object room outside.nameFits stage_kind row.within current

/-- A string in progress, be it a value or a name. -/
theorem LeadsTo.throughout {role : Role} {stage : Stage} {text : Array UInt8} (lead : LeadsTo o outer role p)
    (fits : Fits o text.size) (counted : ∀ w, stage ≠ .keyword w) :
    (Frame.plug outer (role.branch (Frame.nameInside outer) stage text)).Throughout o 0 := by
  cases role with
  | value =>
      exact Leads.throughout_plug lead (Branch.throughout_scalar (Leads.nameFits lead) fits rfl counted)
  | name members =>
      refine LeadsToName.throughout_object lead rfl ?_
      rintro c ⟨⟩
      exact Branch.throughout_scalar nofun fits rfl counted

/-- All that a tree holds is within the limits. -/
theorem throughout_of_reads {t : Tree} (reads : Reads o t s) : t.branch.Throughout o 0 := by
  cases reads with
  | settled place_eq lead value after =>
      subst place_eq
      cases lead with
      | document blank =>
          exact throughout_of_spells none nofun value
      | array outside room row blank =>
          -- The value that has ended is the last of the row.
          have longer := (row.push blank value after).within
          apply outside.throughout_plug
          exact Branch.throughout_array room outside.nameFits rfl longer nofun
      | object outside room row blank quoted beforeColon afterColon =>
          have longer := (row.push blank quoted beforeColon afterColon value after).within
          apply outside.throughout_plug
          exact Branch.throughout_object room outside.nameFits rfl longer nofun
  | blank lead =>
      exact lead.throughout_plug (Branch.throughout_blank lead.nameFits)
  | keyword lead begun more =>
      exact lead.throughout_plug (Branch.throughout_keyword lead.nameFits more)
  | number lead first fits =>
      exact lead.throughout_plug (Branch.throughout_scalar lead.nameFits fits rfl nofun)
  | string lead content fits =>
      exact LeadsTo.throughout lead fits nofun
  | escape lead content fits =>
      exact LeadsTo.throughout lead fits nofun
  | element lead =>
      exact lead.throughout_array rfl
  | name lead =>
      exact lead.throughout_object rfl nofun
  | colon lead quoted blank =>
      refine lead.throughout_object rfl ?_
      rintro c ⟨⟩
      exact Branch.throughout_blank quoted.nameFits

end Grammar

/-! ## Bounds for a whole tree -/

namespace Branch

variable {n p : Branch} {call : Call} {path : Path}

structure Call.Limited (o : Options) (n : Branch) (call : Call) : Prop where
  reaches : n.Reaches call ∨ n.EndsDocument call
  depth_eq : call.depth = (n.containersAround call.path).length
  -- No more calls are going on at once than there are values on the chain and one that begins.
  nesting_le_chain : call.nesting ≤ n.chain.length
  nesting_le : call.nesting ≤ o.maxDepth

/-- What the limits leave of a tree, and of what a byte does to it. -/
structure Limited (o : Options) (n : Branch) : Prop where
  enclosed : ∀ path p, n.at? path = some p → (n.containersAround path).length = path.length
  confined : ∀ path p, n.at? path = some p → p.Confined o (n.containersAround path).length
  no_container : o.maxDepth = 0 → ∀ path p, n.at? path = some p → p.container? = none
  -- No value is further in than the limit, so that is how far the tree has to be taken apart.
  height : ∀ path p, n.at? path = some p → path.length ≤ o.maxDepth
  chain : n.chain.length ≤ o.maxDepth + 1
  calls : ∀ b call, call ∈ n.calls o b → call.Limited o n
  outcome : ∀ b, (n.feedTrace o b).outcome = n.feed o b

/-- An address on the chain is shorter than the chain. -/
theorem OnChain.length_lt (onChain : n.OnChain path p) : path.length < n.chain.length :=
  (List.getElem?_eq_some_iff.1 onChain.chain).1

/-- The innermost value is as many steps away as there are values around it. -/
theorem exists_path_innermost :
    (n : Branch) → ∃ path, n.OnChain path n.innermost ∧ path.length + 1 = n.chain.length
  | ⟨_, _, _, _, _, _, _, none⟩ => ⟨[], .here _, rfl⟩
  | ⟨_, _, _, _, _, _, _, some child⟩ => by
    rcases exists_path_innermost child with ⟨path, onChain, length⟩
    exact ⟨_, onChain.inside rfl, congrArg (· + 1) length⟩

/-- A value that waits for a child is a container. -/
theorem Sound.container_of_waits {c : Container} (sound : n.Sound) (waits : childOf? n.stage = some c) :
    n.container? = some c := by
  rw [container?_eq_some_iff]
  cases stage_eq : n.stage with
  | none =>
      rw [stage_eq] at waits
      cases waits
  | some stage =>
      rw [stage_eq] at waits
      rw [sound.kind_eq stage stage_eq]
      cases stage <;> cases waits <;> rfl

/-- A container has room for itself among those around it. -/
theorem Throughout.length_lt {c : Container} (throughout : n.Throughout o 0) (place : n.at? path = some p)
    (container : p.container? = some c) : path.length < o.maxDepth := by
  have room := (throughout path p place).room c container
  rwa [Nat.zero_add] at room

section

variable (sound : n.AllSound) (throughout : n.Throughout o 0)

include sound throughout

/-- At every place the limits hold, by the number of containers around it. -/
theorem confined_of_throughout (place : n.at? path = some p) : p.Confined o (n.containersAround path).length := by
  rw [length_containersAround sound place, ← Nat.zero_add path.length]
  exact throughout path p place

/-- No address is longer than the depth limit. -/
theorem length_le_of_place (place : n.at? path = some p) : path.length ≤ o.maxDepth := by
  -- The last step leads out of a container, and that is within the limit itself.
  rcases path.eq_nil_or_concat with rfl | ⟨front, i, rfl⟩
  · exact Nat.zero_le _
  · rw [List.concat_eq_append] at place ⊢
    rw [at?_append] at place
    rcases Option.bind_eq_some_iff.1 place with ⟨q, outside, inside⟩
    rcases Option.bind_eq_some_iff.1 inside with ⟨child, part, -⟩
    rcases (sound.at? outside).exists_container (List.mem_of_getElem? part) with ⟨c, container⟩
    rw [List.length_append]
    exact throughout.length_lt outside container

/-- A call for a place on the chain, or for one step beyond it, is within the limits. -/
theorem limited_of_reaches (reaches : n.Reaches call) (depth_eq : call.depth = call.path.length) :
    call.Limited o n := by
  cases reaches with
  | chain onChain nesting =>
      have height := length_le_of_place sound throughout onChain.place
      refine ⟨.inl (.chain onChain nesting), ?_, ?_, ?_⟩
      · rw [depth_eq, length_containersAround sound onChain.place]
      · exact nesting ▸ onChain.length_lt.le
      · exact nesting ▸ height
  | @begun path p c onChain waits idle path_eq value nesting =>
      -- The child is one step further than the container that it begins in.
      have container := ((sound.at? onChain.place) _ (.refl _)).container_of_waits waits
      have length := length_containersAround_concat sound onChain.place container p.children.length
      have inner := throughout.length_lt onChain.place container
      have nested : call.nesting = path.length + 1 := by
        rw [nesting, path_eq, List.length_append, List.length_singleton]
      refine ⟨.inl (.begun onChain waits idle path_eq value nesting), ?_, ?_, ?_⟩
      · rw [depth_eq, path_eq, length, List.length_append, List.length_singleton]
      · exact nested ▸ onChain.length_lt
      · exact nested ▸ inner
  | again onChain waits active kind value nesting =>
      have container := ((sound.at? onChain.place) _ (.refl _)).container_of_waits waits
      have inner := throughout.length_lt onChain.place container
      refine ⟨.inl (.again onChain waits active kind value nesting), ?_, ?_, ?_⟩
      · rw [depth_eq, length_containersAround sound onChain.place]
      · exact nesting ▸ onChain.length_lt
      · exact nesting ▸ inner

/-- All that is said of the limits, from the limits inside. -/
theorem limited_of_throughout : n.Limited o where
  enclosed _ _ place := length_containersAround sound place
  confined _ _ place := confined_of_throughout sound throughout place
  no_container none path p place := by
    rw [Option.eq_none_iff_forall_ne_some]
    intro c container
    have inner := throughout.length_lt place container
    rw [none] at inner
    exact absurd inner (Nat.not_lt_zero _)
  height _ _ place := length_le_of_place sound throughout place
  chain := by
    rcases n.exists_path_innermost with ⟨path, onChain, length⟩
    rw [← length]
    exact Nat.succ_le_succ (length_le_of_place sound throughout onChain.place)
  calls b call mem := by
    rcases reaches_of_mem_calls mem with ⟨reaches | ends, depth_eq⟩
    · exact limited_of_reaches sound throughout reaches depth_eq
    · refine ⟨.inr ends, ?_, ?_, ?_⟩
      · rw [depth_eq, ends.path_eq]
        rfl
      · rw [ends.nesting]
        exact Nat.zero_le _
      · rw [ends.nesting]
        exact Nat.zero_le _
  outcome _ := outcome_feedTrace

end

end Branch

/-! ## Decoders -/

namespace Decoder

/-- The limits bound all that a decoder comes to, whatever has been done with it: where a value is and how deep a
byte is handed on to it, and how long its texts, names and tokens are. -/
theorem limited_of_performAll (o : Options) (leaves : Branch → UInt8 → Branch) (ops : List Operation) :
    ((start o).performAll leaves ops).options = o ∧
      (((start o).performAll leaves ops).root.getD .fresh).Limited o := by
  have same : (start o).performAll leaves ops = ((Session.start o).performAll ops).decoder :=
    Session.performAll_decoder leaves (.start o) ops
  have fed : (Session.start o).feedAll [] = .ok (.start o) := rfl
  have run := Session.feedAll_recent fed ops
  rcases Session.current_of_feedAll run with ⟨treeRun, options⟩
  rw [same, Session.root_getD]
  refine ⟨options, ?_⟩
  exact Branch.limited_of_throughout (Tree.allSound_branch (Tree.placed_of_feedEach treeRun))
    (Grammar.throughout_of_reads (Grammar.reads_of_feedAll treeRun))

end Decoder

end JsonStream
