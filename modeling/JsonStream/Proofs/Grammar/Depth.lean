import JsonStream.Proofs.Grammar.Reads
import JsonStream.Tree.View
import JsonStream.Value.Content

/-!
# Depth of what has been read

The grammar asks for room at every opening bracket, so no value it derives is deeper than the limit
allows at its place. The same then holds of everything that a tree shows: its containers have been opened,
and the children in them derived.

- `height_of_spells` — values
- `height_filled`, `height_visible_le` — what a tree shows
-/

namespace JsonStream.Grammar

variable {o : Options}

/-! ## Values -/

mutual

/-- What is spelled inside `depth` containers reaches no further in than the limit. Induction on the spelling,
with its rows. -/
theorem height_of_spells {depth : Nat} {s : Bytes} {v : Value} :
    Spells o depth s v → v.height = 0 ∨ depth + v.height ≤ o.maxDepth
  | .keyword word => .inl (by cases word <;> rfl)
  | .number _ => .inl rfl
  | .string _ => .inl rfl
  | .emptyArray room _ => .inr room
  | .array room elements => by
      have inside := height_of_elements elements
      rw [Value.height]
      omega
  | .emptyObject room _ => .inr room
  | .object room inside => by
      have inside := height_of_members inside
      rw [Value.height]
      omega

theorem height_of_elements {depth : Nat} {s : Bytes} {items : List Value} :
    Elements o depth s items →
    Value.heightItems items = 0 ∨ depth + Value.heightItems items ≤ o.maxDepth
  | .one _ value _ => by
      have first := height_of_spells value
      rw [Value.heightItems, Value.heightItems]
      omega
  | .more _ value _ others => by
      have first := height_of_spells value
      have rest := height_of_elements others
      rw [Value.heightItems]
      omega

theorem height_of_members {depth : Nat} {s : Bytes} {members : List (Bytes × Value)} :
    Members o depth s members →
    Value.heightMembers members = 0 ∨ depth + Value.heightMembers members ≤ o.maxDepth
  | .one _ _ _ _ value _ => by
      have first := height_of_spells value
      rw [Value.heightMembers, Value.heightMembers]
      omega
  | .more _ _ _ _ value _ others => by
      have first := height_of_spells value
      have rest := height_of_members others
      rw [Value.heightMembers]
      omega

end

/-! ## Rows -/

variable {depth : Nat} {s p : Bytes} {v : Value} {items : List Value} {members : List (Bytes × Value)}
  {outer : List Frame} {t : Tree}

theorem heightItems_append (vs ws : List Value) :
    Value.heightItems (vs ++ ws) = max (Value.heightItems vs) (Value.heightItems ws) := by
  induction vs with
  | nil =>
      rw [List.nil_append, Value.heightItems, Nat.zero_max]
  | cons v rest ih =>
      rw [List.cons_append, Value.heightItems, Value.heightItems, ih, Nat.max_assoc]

theorem heightMembers_append (ms ns : List (Bytes × Value)) :
    Value.heightMembers (ms ++ ns) = max (Value.heightMembers ms) (Value.heightMembers ns) := by
  induction ms with
  | nil =>
      rw [List.nil_append, Value.heightMembers, Nat.zero_max]
  | cons member rest ih =>
      rcases member with ⟨name, v⟩
      rw [List.cons_append, Value.heightMembers, Value.heightMembers, ih, Nat.max_assoc]

/-- The elements before the one in progress reach no further in than the limit. -/
theorem Row.height (row : Row o depth s items) :
    Value.heightItems items = 0 ∨ depth + Value.heightItems items ≤ o.maxDepth := by
  induction row with
  | nil =>
      exact .inl rfl
  | snoc row before value after ih =>
      have last := height_of_spells value
      rw [heightItems_append, Value.heightItems, Value.heightItems]
      omega

theorem MemberRow.height (row : MemberRow o depth s members) :
    Value.heightMembers members = 0 ∨ depth + Value.heightMembers members ≤ o.maxDepth := by
  induction row with
  | nil =>
      exact .inl rfl
  | snoc row before quoted beforeColon afterColon value after ih =>
      have last := height_of_spells value
      rw [heightMembers_append, Value.heightMembers, Value.heightMembers]
      omega

/-- An array with these elements was opened where there was room for it. -/
theorem Row.height_le (row : Row o (depth + 1) s items) (room : depth < o.maxDepth) :
    (Value.array items).height ≤ o.maxDepth := by
  have inside := row.height
  rw [Value.height]
  omega

/-- An object with these members was opened where there was room for it. -/
theorem MemberRow.height_le (row : MemberRow o (depth + 1) s members) (room : depth < o.maxDepth) :
    (Value.object members).height ≤ o.maxDepth := by
  have inside := row.height
  rw [Value.height]
  omega

/-! ## Trees -/

/-- Of the containers around a value in progress, the outermost shows. -/
theorem Leads.height {f : Frame} (lead : Leads o outer p) (last : outer.getLast? = some f) :
    f.outline.filled.height ≤ o.maxDepth := by
  -- Only the outermost frame shows, and it was opened inside no other.
  induction lead with
  | document blank =>
      cases last
  | @array outer items p r a outside room row blank ih =>
      cases outer with
      | nil =>
          cases last
          exact row.height_le room
      | cons g rest =>
          rw [List.getLast?_cons_cons] at last
          exact ih last
  | @object outer members name p r a k b c outside room row blank quoted beforeColon afterColon ih =>
      cases outer with
      | nil =>
          cases last
          exact row.height_le room
      | cons g rest =>
          rw [List.getLast?_cons_cons] at last
          exact ih last

/-- What shows of a tree is its outermost container, or what is inside no container. -/
theorem Leads.height_outline {inner : Outline} (lead : Leads o outer p)
    (inside : inner.filled.height ≤ o.maxDepth) :
    ((outer.getLast?.map Frame.outline).getD inner).filled.height ≤ o.maxDepth := by
  cases last : outer.getLast? with
  | none =>
      exact inside
  | some f =>
      exact lead.height last

/-- An object that waits for a name shows nothing that reaches further in than the limit. -/
theorem LeadsToName.height_outline {members : Array (Bytes × Value)} (lead : LeadsToName o outer members p) :
    ((outer.getLast?.map Frame.outline).getD (.object members.toList)).filled.height ≤ o.maxDepth := by
  cases lead with
  | intro outside room row blank =>
      exact outside.height_outline (row.height_le room)

/-- What a tree shows reaches no further in than the limit. -/
theorem height_filled (reads : Reads o t s) : t.filled.height ≤ o.maxDepth := by
  cases reads with
  | settled place_eq lead value after =>
      subst place_eq
      cases lead with
      | document blank =>
          have bound := height_of_spells value
          change (Value.outline _).filled.height ≤ _
          rw [Value.filled_outline]
          rw [List.length_nil] at bound
          omega
      | array outside room row blank =>
          -- The value that has ended is the last of the row.
          exact outside.height_outline ((row.push blank value after).height_le room)
      | object outside room row blank quoted beforeColon afterColon =>
          have longer := row.push blank quoted beforeColon afterColon value after
          exact outside.height_outline (longer.height_le room)
  | blank lead =>
      exact lead.height_outline (Nat.zero_le _)
  | @keyword outer word seen p lead begun more =>
      refine lead.height_outline ?_
      cases word <;> exact Nat.zero_le _
  | number lead first fits =>
      exact lead.height_outline (Nat.zero_le _)
  | @string outer role text p s lead content fits =>
      cases role with
      | value =>
          exact Leads.height_outline lead (Nat.zero_le _)
      | name members =>
          exact LeadsToName.height_outline lead
  | @escape outer role text p s lead content fits =>
      cases role with
      | value =>
          exact Leads.height_outline lead (Nat.zero_le _)
      | name members =>
          exact LeadsToName.height_outline lead
  | element lead =>
      cases lead with
      | array outside room row blank =>
          exact outside.height_outline (row.height_le room)
  | name lead =>
      exact lead.height_outline
  | colon lead quoted blank =>
      exact lead.height_outline

/-- What shows of an unfinished value other than a container is null. -/
theorem height_visible_le (t : Tree) : t.visible.height ≤ t.filled.height := by
  rw [Tree.visible, Tree.filled]
  -- A complete value shows as itself, so there is nothing to compare but the two ways to say it.
  cases complete : t.value? with
  | some v =>
      obtain rfl := Tree.value?_eq_some_iff.1 complete
      change v.height ≤ v.outline.filled.height
      rw [Value.filled_outline]
  | none =>
      cases t.outline with
      | array items =>
          exact le_rfl
      | object members =>
          exact le_rfl
      | _ =>
          exact Nat.zero_le _

end JsonStream.Grammar
