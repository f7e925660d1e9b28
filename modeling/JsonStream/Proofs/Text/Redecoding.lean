import JsonStream.Proofs.Branch.Text
import JsonStream.Proofs.Grammar.Accepts
import JsonStream.Proofs.Grammar.Depth
import JsonStream.Proofs.Text.Spelling

/-!
# Decoding what was written

What a session shows between any two bytes, written in the plain dialect, can be decoded by a session with
the same depth limit, and gives what was shown with its texts repaired. Writing that again makes no
difference, and neither does the repair exactly if every text is an encoding of characters.

- `write_repaired` — the writer repairs by itself
- `same_repaired_iff` — when a repair is none
- `redecode_visible` — sessions
-/

namespace JsonStream

open Grammar (Document)
open Text (Dialect)
open Utf8 (encode lossy)

/-! ## Repaired values -/

/-- A repaired text is written as the text itself, for the writer repairs it anyway. -/
theorem Text.Dialect.string_repaired (d : Dialect) (text : Bytes) :
    d.string (encode (lossy text)) = d.string text := by
  rw [string, string, Utf8.lossy_encode]

mutual

/-- A repaired value is written like the value itself. -/
theorem Text.Dialect.write_repaired (d : Dialect) : (v : Value) → d.write v.repaired = d.write v
  | .null => rfl
  | .bool _ => rfl
  | .number _ => rfl
  | .string text => d.string_repaired text
  | .array items => by
      have inside := writeItems_repaired d [] items
      exact congrArg (fun cs => '[' :: cs ++ [']']) inside
  | .object members => by
      have inside := writeMembers_repaired d [] members
      exact congrArg (fun cs => '\x7b' :: cs ++ ['\x7d']) inside

theorem Text.Dialect.writeItems_repaired (d : Dialect) (lead : List Char) : (items : List Value) →
    d.writeItems lead (Value.mapTextsItems (fun text => encode (lossy text)) items) = d.writeItems lead items
  | [] => rfl
  | v :: rest => by
      have first : d.write (v.mapTexts fun text => encode (lossy text)) = d.write v := write_repaired d v
      rw [Value.mapTextsItems, writeItems, writeItems, first, writeItems_repaired d [','] rest]

theorem Text.Dialect.writeMembers_repaired (d : Dialect) (lead : List Char) :
    (members : List (Bytes × Value)) →
      d.writeMembers lead (Value.mapTextsMembers (fun text => encode (lossy text)) members) =
        d.writeMembers lead members
  | [] => rfl
  | (name, v) :: rest => by
      have first : d.write (v.mapTexts fun text => encode (lossy text)) = d.write v := write_repaired d v
      rw [Value.mapTextsMembers, writeMembers, writeMembers, first, d.string_repaired,
        writeMembers_repaired d [','] rest]

end

theorem Binary64.same_self (x : Binary64) : x.same x = true := by
  rw [same, beq_self_eq_true, beq_self_eq_true, Bool.or_true, Bool.and_true]

mutual

/-- A repaired value equals the value itself exactly if there was nothing to repair. -/
theorem Value.same_repaired_iff : (v : Value) →
    (v.repaired.same v = true ↔ ∀ text ∈ v.texts, Utf8.WellFormed text)
  | .null => by simp [repaired, mapTexts, same, texts]
  | .bool b => by simp [repaired, mapTexts, same, texts]
  | .number x => by simp [repaired, mapTexts, same, texts, x.same_self]
  | .string text => by simp [repaired, mapTexts, same, texts, Utf8.encode_lossy_eq_iff]
  | .array items => sameItems_repaired_iff items
  | .object members => sameMembers_repaired_iff members

/-- A row is the same repaired exactly if all its texts are well formed. -/
theorem Value.sameItems_repaired_iff : (items : List Value) →
    (sameItems (mapTextsItems (fun text => encode (lossy text)) items) items = true ↔
      ∀ text ∈ textsItems items, Utf8.WellFormed text)
  | [] => by simp [mapTextsItems, sameItems, textsItems]
  | v :: rest => by
      have first : (v.mapTexts fun text => encode (lossy text)).same v = true ↔ _ := same_repaired_iff v
      rw [mapTextsItems, sameItems, textsItems, Bool.and_eq_true, first, sameItems_repaired_iff rest]
      simp only [List.mem_append, or_imp, forall_and]

theorem Value.sameMembers_repaired_iff : (members : List (Bytes × Value)) →
    (sameMembers (mapTextsMembers (fun text => encode (lossy text)) members) members = true ↔
      ∀ text ∈ textsMembers members, Utf8.WellFormed text)
  | [] => by simp [mapTextsMembers, sameMembers, textsMembers]
  | (name, v) :: rest => by
      have first : (v.mapTexts fun text => encode (lossy text)).same v = true ↔ _ := same_repaired_iff v
      rw [mapTextsMembers, sameMembers, textsMembers, Bool.and_eq_true, Bool.and_eq_true, beq_iff_eq,
        Utf8.encode_lossy_eq_iff, first, sameMembers_repaired_iff rest]
      simp only [List.cons_append, List.mem_cons, List.mem_append, or_imp, forall_and, forall_eq, and_assoc]

end

/-- Complete values show all there is to them. -/
theorem Value.same_outline (v w : Value) : v.outline.same w.outline = v.same w := by
  cases v with
  | bool a =>
      cases w with
      | bool b =>
          cases a <;> cases b <;> rfl
      | null =>
          cases a <;> rfl
      | _ =>
          rfl
  | _ =>
      cases w <;> rfl

/-! ## Sessions -/

namespace Session

variable {o : Options} {s : Session} {bytes : Bytes}

/-- A value that is not too deep is decoded from what is written for it, but repaired. -/
theorem decode_write_of_readable {d : Dialect} {v : Value} (unlimited : o.maxTokenLength = none)
    (readable : ∀ text ∈ v.texts, d.Readable text) (room : v.height ≤ o.maxDepth) :
    (start o).decode (encode (d.write v)) = .ok v.repaired := by
  have spells := Text.spells_write unlimited 0 v readable (by omega)
  have document : Document o (encode (d.write v)) v.repaired :=
    ⟨[], _, [], (List.append_nil _).symm, .nil, spells, .nil⟩
  exact decode_eq_ok_iff_run.2 (Grammar.accepts_of_document document)

/-- What is written of a value is decoded to the value with its texts repaired. -/
theorem decode_write {v : Value} (unlimited : o.maxTokenLength = none) (room : v.height ≤ o.maxDepth) :
    (start o).decode (encode (Dialect.plain.write v)) = .ok v.repaired :=
  decode_write_of_readable unlimited (fun text _ => Text.readable_plain text) room

/-- What a session shows can be written and decoded again, with or without lenient white space; the
outcome is written the same, and for a complete value it is equal to it exactly if every text and name in
the value is well formed. -/
theorem redecode_visible (run : (start o).feedAll bytes = .ok s) (lenient : Bool) :
    (start { o with maxTokenLength := none, lenientWhitespace := lenient }).decode
        (encode s.current.branch.display) = .ok s.current.visible.repaired ∧
      (Tree.ofValue s.current.visible.repaired).branch.display = s.current.branch.display ∧
      (s.isComplete = true →
        ((Tree.ofValue s.current.visible.repaired).same s.current = true ↔
          ∀ text ∈ s.current.visible.texts, Utf8.WellFormed text)) := by
  rcases current_of_feedAll run with ⟨treeRun, -⟩
  have reads := Grammar.reads_of_feedAll treeRun
  -- The value that is written is no deeper than what was read under the same limit.
  have room := (Grammar.height_visible_le s.current).trans (Grammar.height_filled reads)
  rw [Tree.display_ofValue, Tree.display_branch]
  refine ⟨decode_write rfl room, Dialect.plain.write_repaired _, ?_⟩
  intro complete
  rw [isComplete_eq_current] at complete
  -- A complete tree is its value, and that is compared with its own repair.
  rcases Tree.isComplete_iff.1 complete with ⟨v, current_eq⟩
  rw [current_eq]
  change v.repaired.outline.same v.outline = true ↔ ∀ text ∈ v.texts, Utf8.WellFormed text
  rw [Value.same_outline, Value.same_repaired_iff]

/-- An array with a byte that is no character: it is decoded again as the replacement character, and so the
text is not well formed. -/
theorem redecode_stray_byte :
    (start { maxDepth := 1 }).feedAll [0x5B, 0x22, 0xFF, 0x22, 0x5D] =
        .ok ⟨{ maxDepth := 1 }, some (.ofValue (.array [.string [0xFF]])), ⟨5, 1, 6⟩⟩ ∧
      (start { maxDepth := 1, lenientWhitespace := true }).decode
          (encode (Tree.ofValue (.array [.string [0xFF]])).branch.display) =
        .ok (.array [.string [0xEF, 0xBF, 0xBD]]) ∧
      ¬ ∀ text ∈ (Value.array [.string [0xFF]]).texts, Utf8.WellFormed text := by
  have run : (start { maxDepth := 1 }).feedAll [0x5B, 0x22, 0xFF, 0x22, 0x5D] =
      .ok ⟨{ maxDepth := 1 }, some (.ofValue (.array [.string [0xFF]])), ⟨5, 1, 6⟩⟩ := by
    rfl
  rcases redecode_visible run true with ⟨decoded, -, same_iff⟩
  refine ⟨run, decoded, fun wellFormed => ?_⟩
  have same := (same_iff rfl).2 wellFormed
  exact absurd same (by decide)

end Session

end JsonStream
