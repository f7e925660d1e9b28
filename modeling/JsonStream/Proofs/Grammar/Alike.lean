import JsonStream.Grammar.Alike
import JsonStream.Proofs.Grammar.Accepts

/-!
# Documents that say the same have equal values

Equality of values looks at nothing that spellings of one value may differ in. Going along two derivations at once,
equal values are seen to have spellings that say the same; and two spellings that say the same are spellings of
equal values. Since a document has one value, the relation of the texts is that of the values.

- `alike_of_spells` — from values to spellings
- `exists_spells_of_alike` — from spellings to values
- `same_iff_alikeDocuments` — documents
-/

namespace JsonStream.Grammar

variable {o o' : Options}

/-! ## From values to spellings -/

/-- Keywords denote the same only if they are the same. -/
theorem keyword_eq_of_same {word word' : Keyword} (same : word.value.same word'.value = true) : word = word' := by
  cases word with
  | null =>
      cases word' with
      | null =>
          rfl
      | bool b =>
          cases same
  | bool b =>
      cases word' with
      | null =>
          cases same
      | bool c =>
          exact congrArg Keyword.bool (beq_iff_eq.1 same)

mutual

/-- Spellings of equal values say the same. -/
theorem alike_of_spells {depth : Nat} {s : Bytes} {v : Value} : Spells o depth s v → ∀ {s' : Bytes} {w : Value},
    Spells o' depth s' w → v.same w = true → Alike o o' depth s s'
  | .keyword word, _, _, second, same => by
      cases second with
      | keyword word' =>
          cases keyword_eq_of_same same
          exact .keyword word
      | _ =>
          cases word <;> cases same
  | .number number, _, _, second, same => by
      cases second with
      | number number' =>
          exact .number number number' same
      | keyword word =>
          cases word <;> cases same
      | _ =>
          cases same
  | .string quoted, _, _, second, same => by
      cases second with
      | string quoted' =>
          cases beq_iff_eq.1 same
          exact .string quoted quoted'
      | keyword word =>
          cases word <;> cases same
      | _ =>
          cases same
  | .emptyArray room blank, _, _, second, same => by
      cases second with
      | emptyArray room' blank' =>
          exact .emptyArray room room' blank blank'
      | array room' elements =>
          cases elements <;> cases same
      | keyword word =>
          cases word <;> cases same
      | _ =>
          cases same
  | .array room elements, _, _, second, same => by
      cases second with
      | emptyArray room' blank' =>
          cases elements <;> cases same
      | array room' elements' =>
          exact .array room room' (alike_of_elements elements elements' same)
      | keyword word =>
          cases word <;> cases same
      | _ =>
          cases same
  | .emptyObject room blank, _, _, second, same => by
      cases second with
      | emptyObject room' blank' =>
          exact .emptyObject room room' blank blank'
      | object room' inside =>
          cases inside <;> cases same
      | keyword word =>
          cases word <;> cases same
      | _ =>
          cases same
  | .object room inside, _, _, second, same => by
      cases second with
      | emptyObject room' blank' =>
          cases inside <;> cases same
      | object room' inside' =>
          exact .object room room' (alike_of_members inside inside' same)
      | keyword word =>
          cases word <;> cases same
      | _ =>
          cases same

/-- Rows that are spelled and denote the same say the same one by one. -/
theorem alike_of_elements {depth : Nat} {s : Bytes} {vs : List Value} : Elements o depth s vs →
    ∀ {s' : Bytes} {ws : List Value}, Elements o' depth s' ws → Value.sameItems vs ws = true →
      AlikeElements o o' depth s s'
  | .one before value after, _, _, second, same => by
      cases second with
      | one before' value' after' =>
          rw [Value.sameItems, Bool.and_eq_true] at same
          exact .one before before' (alike_of_spells value value' same.1) after after'
      | more before' value' after' others' =>
          rw [Value.sameItems, Bool.and_eq_true] at same
          cases others' <;> cases same.2
  | .more before value after others, _, _, second, same => by
      cases second with
      | one before' value' after' =>
          rw [Value.sameItems, Bool.and_eq_true] at same
          cases others <;> cases same.2
      | more before' value' after' others' =>
          rw [Value.sameItems, Bool.and_eq_true] at same
          exact .more before before' (alike_of_spells value value' same.1) after after'
            (alike_of_elements others others' same.2)

theorem alike_of_members {depth : Nat} {s : Bytes} {ms : List (Bytes × Value)} : Members o depth s ms →
    ∀ {s' : Bytes} {ns : List (Bytes × Value)}, Members o' depth s' ns → Value.sameMembers ms ns = true →
      AlikeMembers o o' depth s s'
  | .one before quoted beforeColon afterColon value after, _, _, second, same => by
      cases second with
      | one before' quoted' beforeColon' afterColon' value' after' =>
          rw [Value.sameMembers, Bool.and_eq_true, Bool.and_eq_true, beq_iff_eq] at same
          obtain ⟨⟨rfl, same⟩, -⟩ := same
          exact .one before before' quoted quoted' beforeColon beforeColon' afterColon afterColon'
            (alike_of_spells value value' same) after after'
      | more before' quoted' beforeColon' afterColon' value' after' others' =>
          rw [Value.sameMembers, Bool.and_eq_true] at same
          cases others' <;> cases same.2
  | .more before quoted beforeColon afterColon value after others, _, _, second, same => by
      cases second with
      | one before' quoted' beforeColon' afterColon' value' after' =>
          rw [Value.sameMembers, Bool.and_eq_true] at same
          cases others <;> cases same.2
      | more before' quoted' beforeColon' afterColon' value' after' others' =>
          rw [Value.sameMembers, Bool.and_eq_true, Bool.and_eq_true, beq_iff_eq] at same
          obtain ⟨⟨rfl, same⟩, rest⟩ := same
          exact .more before before' quoted quoted' beforeColon beforeColon' afterColon afterColon'
            (alike_of_spells value value' same) after after' (alike_of_members others others' rest)

end

/-! ## From spellings to values -/

theorem same_keyword (word : Keyword) : word.value.same word.value = true := by
  cases word with
  | null =>
      rfl
  | bool b =>
      exact beq_self_eq_true b

mutual

/-- Two spellings that say the same are spellings of equal values. -/
theorem exists_spells_of_alike {depth : Nat} {s s' : Bytes} : Alike o o' depth s s' →
    ∃ v w, Spells o depth s v ∧ Spells o' depth s' w ∧ v.same w = true
  | .keyword word => ⟨_, _, .keyword word, .keyword word, same_keyword word⟩
  | .number left right same => ⟨_, _, .number left, .number right, same⟩
  | .string left right => ⟨_, _, .string left, .string right, beq_self_eq_true _⟩
  | .emptyArray room room' blank blank' => ⟨_, _, .emptyArray room blank, .emptyArray room' blank', rfl⟩
  | .array room room' elements => by
      rcases exists_elements_of_alike elements with ⟨vs, ws, left, right, same⟩
      exact ⟨_, _, .array room left, .array room' right, same⟩
  | .emptyObject room room' blank blank' => ⟨_, _, .emptyObject room blank, .emptyObject room' blank', rfl⟩
  | .object room room' inside => by
      rcases exists_members_of_alike inside with ⟨ms, ns, left, right, same⟩
      exact ⟨_, _, .object room left, .object room' right, same⟩

/-- Rows that say the same are spelled, and denote the same. -/
theorem exists_elements_of_alike {depth : Nat} {s s' : Bytes} : AlikeElements o o' depth s s' →
    ∃ vs ws, Elements o depth s vs ∧ Elements o' depth s' ws ∧ Value.sameItems vs ws = true
  | .one before before' value after after' => by
      rcases exists_spells_of_alike value with ⟨v, w, left, right, same⟩
      refine ⟨_, _, .one before left after, .one before' right after', ?_⟩
      rw [Value.sameItems, same]
      rfl
  | .more before before' value after after' others => by
      rcases exists_spells_of_alike value with ⟨v, w, left, right, same⟩
      rcases exists_elements_of_alike others with ⟨vs, ws, lefts, rights, all⟩
      refine ⟨_, _, .more before left after lefts, .more before' right after' rights, ?_⟩
      rw [Value.sameItems, same, all]
      rfl

theorem exists_members_of_alike {depth : Nat} {s s' : Bytes} : AlikeMembers o o' depth s s' →
    ∃ ms ns, Members o depth s ms ∧ Members o' depth s' ns ∧ Value.sameMembers ms ns = true
  | .one before before' quoted quoted' beforeColon beforeColon' afterColon afterColon' value after after' => by
      rcases exists_spells_of_alike value with ⟨v, w, left, right, same⟩
      refine ⟨_, _, .one before quoted beforeColon afterColon left after,
        .one before' quoted' beforeColon' afterColon' right after', ?_⟩
      rw [Value.sameMembers, same, beq_self_eq_true]
      rfl
  | .more before before' quoted quoted' beforeColon beforeColon' afterColon afterColon' value after after'
      others => by
      rcases exists_spells_of_alike value with ⟨v, w, left, right, same⟩
      rcases exists_members_of_alike others with ⟨ms, ns, lefts, rights, all⟩
      refine ⟨_, _, .more before quoted beforeColon afterColon left after lefts,
        .more before' quoted' beforeColon' afterColon' right after' rights, ?_⟩
      rw [Value.sameMembers, same, all, beq_self_eq_true]
      rfl

end

/-! ## Documents -/

variable {s s' : Bytes} {v w : Value}

/-- A document has one value, since it is decoded to it. -/
theorem Document.unique (first : Document o s v) (second : Document o s w) : v = w := by
  have decoded := Session.decode_eq_ok_iff_run.2 (accepts_of_document first)
  rw [Session.decode_eq_ok_iff_run.2 (accepts_of_document second)] at decoded
  exact (Except.ok.inj decoded).symm

/-- The values of two documents are equal exactly if the documents say the same. -/
theorem same_iff_alikeDocuments (first : Document o s v) (second : Document o' s' w) :
    v.same w = true ↔ AlikeDocuments o o' s s' := by
  constructor
  · intro same
    rcases first with ⟨before, value, after, split, blankBefore, spells, blankAfter⟩
    rcases second with ⟨before', value', after', split', blankBefore', spells', blankAfter'⟩
    exact ⟨before, value, after, before', value', after', split, split', blankBefore, blankBefore',
      alike_of_spells spells spells' same, blankAfter, blankAfter'⟩
  · rintro ⟨before, value, after, before', value', after', split, split', blankBefore, blankBefore', alike,
      blankAfter, blankAfter'⟩
    rcases exists_spells_of_alike alike with ⟨v', w', spells, spells', same⟩
    have left : v = v' := first.unique ⟨before, value, after, split, blankBefore, spells, blankAfter⟩
    have right : w = w' := second.unique ⟨before', value', after', split', blankBefore', spells', blankAfter'⟩
    rwa [left, right]

end JsonStream.Grammar
