import JsonStream.Branch.Equality
import JsonStream.Proofs.Branch.Text
import JsonStream.Proofs.Grammar.Alike
import JsonStream.Proofs.Grammar.Ended
import JsonStream.Proofs.Text.Unsigned

/-!
# Equality is a sound equivalence

On patterns of the interchange format equality is not reflexive, but a branch holds finite numbers only, and two
branches are equal exactly if what is compared of them is identical. On trees this is the equality of outlines, and on
complete trees that of values, of which both their texts and the documents that they come from have something to say.

- `Binary64.sameBits_bits` — numbers
- `Branch.same_iff_shown`, `Branch.equivalence_same` — values in progress
- `Branch.Exhibits.same`, `Tree.same_branch` — trees
- `equality_sound` — all that is said of equality
-/

namespace JsonStream

open Grammar (AlikeDocuments)
open Text (Dialect plusZeros)
open Utf8 (encode)

/-! ## Numbers -/

namespace Binary64

theorem bits_mod (x : Binary64) : x.bits % Nat.pow 2 63 = x.rank := by
  have small : x.rank < Nat.pow 2 63 := Nat.lt_of_lt_of_le x.rank_lt (by decide)
  rw [bits]
  cases x.negative with
  | true =>
      rw [if_pos rfl, Nat.add_mod_left, Nat.mod_eq_of_lt small]
  | false =>
      rw [if_neg Bool.false_ne_true, Nat.zero_add, Nat.mod_eq_of_lt small]

/-- The pattern of a finite number is a number. -/
theorem isNaN_bits (x : Binary64) : isNaN x.bits = false := by
  rw [isNaN, bits_mod, decide_eq_false_iff_not]
  exact Nat.not_lt_of_gt x.rank_lt

/-- Patterns of finite numbers are equal only for equal sign and rank. -/
theorem bits_inj {x y : Binary64} : x.bits = y.bits ↔ x.rank = y.rank ∧ x.negative = y.negative := by
  constructor
  · intro same
    have rank : x.rank = y.rank := by
      rw [← x.bits_mod, same, y.bits_mod]
    rw [bits, bits, rank, Nat.add_right_cancel_iff] at same
    refine ⟨rank, ?_⟩
    cases negative : x.negative <;> cases negative' : y.negative <;> rw [negative, negative'] at same
    · exact absurd same (by decide)
    · exact absurd same (by decide)
  · rintro ⟨rank, negative⟩
    rw [bits, bits, rank, negative]

/-- On finite numbers equality looks at the magnitude and, unless it is zero, the sign. -/
theorem sameBits_bits (x y : Binary64) : sameBits x.bits y.bits = x.same y := by
  rw [Bool.eq_iff_iff, sameBits, isNaN_bits, isNaN_bits, bits_mod, bits_mod, same]
  simp only [Bool.not_false, Bool.true_and, Bool.or_eq_true, Bool.and_eq_true, beq_iff_eq, bits_inj]
  constructor
  · rintro (⟨rank, negative⟩ | ⟨zero, zero'⟩)
    · exact ⟨rank, .inr negative⟩
    · exact ⟨zero.trans zero'.symm, .inl zero⟩
  · rintro ⟨rank, zero | negative⟩
    · exact .inr ⟨zero, rank ▸ zero⟩
    · exact .inl ⟨rank, negative⟩

/-- On finite numbers the comparison of patterns forgets the sign of zero and nothing else. -/
theorem sameBits_iff_unsigned (x y : Binary64) : sameBits x.bits y.bits = true ↔ x.unsigned = y.unsigned := by
  rw [sameBits_bits, same_iff_unsigned]

end Binary64

/-! ## Values in progress -/

namespace Branch

/-- The payload of the kind is compared, and no other field. -/
theorem samePayload_iff {kind : Option Kind} {number number' : Binary64} {text text' : Option Bytes} :
    samePayload kind number number' text text' = true ↔
      (if kind = some .number then number.unsigned else .zero false) =
          (if kind = some .number then number'.unsigned else .zero false) ∧
        (if kind = some .string then text else none) = if kind = some .string then text' else none := by
  cases kind with
  | none =>
      simp [samePayload]
  | some kind =>
      cases kind <;> simp [samePayload, Binary64.sameBits_iff_unsigned]

mutual

/-- Two values are equal exactly if what is compared of them is identical. -/
theorem same_iff_shown : (n m : Branch) → (n.same m = true ↔ n.shown = m.shown)
  | ⟨kind, number, text, name, children, stage, token, active⟩,
    ⟨kind', number', text', name', children', stage', token', active'⟩ => by
      have inside := sameAll_iff_shownAll children children'
      simp only [same, shown, Bool.and_eq_true, beq_iff_eq, inside, mk.injEq, and_true]
      constructor
      · rintro ⟨⟨⟨rfl, rfl⟩, payload⟩, all⟩
        rcases samePayload_iff.1 payload with ⟨numbers, texts⟩
        exact ⟨rfl, numbers, texts, rfl, all⟩
      · rintro ⟨rfl, numbers, texts, rfl, all⟩
        exact ⟨⟨⟨rfl, rfl⟩, samePayload_iff.2 ⟨numbers, texts⟩⟩, all⟩

/-- Rows of children are compared in order, by what is shown of each. -/
theorem sameAll_iff_shownAll : (ns ms : List Branch) → (sameAll ns ms = true ↔ shownAll ns = shownAll ms)
  | [], [] => by
      simp [sameAll, shownAll]
  | [], _ :: _ => by
      simp [sameAll, shownAll]
  | _ :: _, [] => by
      simp [sameAll, shownAll]
  | n :: ns, m :: ms => by
      simp [sameAll, shownAll, same_iff_shown n m, sameAll_iff_shownAll ns ms]

end

/-- Equality is an equivalence, since it is equality of what is shown. -/
theorem equivalence_same : Equivalence fun n m : Branch => n.same m = true where
  refl n := (same_iff_shown n n).2 rfl
  symm same := (same_iff_shown _ _).2 ((same_iff_shown _ _).1 same).symm
  trans first second := (same_iff_shown _ _).2 (((same_iff_shown _ _).1 first).trans ((same_iff_shown _ _).1 second))

end Branch

/-! ## Complete values -/

namespace Value

variable {name name' : Option Bytes}

mutual

/-- As branches two complete values are equal if they are equal and have the same name. -/
theorem same_branch : (v w : Value) → ∀ name name', (v.branch name).same (w.branch name') = (name == name' && v.same w)
  | null, w, name, name' => by
      cases w <;> simp [branch, Branch.same, Branch.samePayload, Branch.sameAll, same]
  | bool b, w, name, name' => by
      cases w with
      | bool c =>
          rw [Bool.eq_iff_iff]
          simp [branch, Branch.same, Branch.samePayload, Branch.sameAll, same, and_comm]
      | _ =>
          simp [branch, Branch.same, same]
  | number x, w, name, name' => by
      cases w <;> simp [branch, Branch.same, Branch.samePayload, Branch.sameAll, same, Binary64.sameBits_bits]
  | string text, w, name, name' => by
      cases w <;> simp [branch, Branch.same, Branch.samePayload, Branch.sameAll, same]
  | array items, w, name, name' => by
      cases w with
      | array others =>
          simp [branch, Branch.same, Branch.samePayload, same, sameAll_branchItems items others]
      | _ =>
          simp [branch, Branch.same, same]
  | object members, w, name, name' => by
      cases w with
      | object others =>
          simp [branch, Branch.same, Branch.samePayload, same, sameAll_branchMembers members others]
      | _ =>
          simp [branch, Branch.same, same]

theorem sameAll_branchItems : (vs ws : List Value) → Branch.sameAll (branchItems vs) (branchItems ws) = sameItems vs ws
  | [], [] => rfl
  | [], _ :: _ => rfl
  | _ :: _, [] => rfl
  | v :: vs, w :: ws => by
      rw [branchItems, branchItems, Branch.sameAll, sameItems, same_branch v w, sameAll_branchItems vs ws,
        beq_self_eq_true, Bool.true_and]

theorem sameAll_branchMembers : (ms ns : List (Bytes × Value)) →
    Branch.sameAll (branchMembers ms) (branchMembers ns) = sameMembers ms ns
  | [], [] => rfl
  | [], _ :: _ => rfl
  | _ :: _, [] => rfl
  | (name, v) :: ms, (name', w) :: ns => by
      rw [branchMembers, branchMembers, Branch.sameAll, sameMembers, same_branch v w, sameAll_branchMembers ms ns]
      rfl

end

end Value

/-! ## Trees -/

namespace Branch

variable {n m : Branch} {a b : Outline}

/-- Equality field by field, without the form in which it is computed. -/
theorem same_eq (n m : Branch) : n.same m =
    (n.kind == m.kind && n.name == m.name && samePayload n.kind n.number m.number n.text m.text &&
      sameAll n.children m.children) := by
  rcases n with ⟨kind, number, text, name, children, stage, token, active⟩
  rfl

/-- Equality of values is equality of their outlines. -/
theorem Exhibits.same (left : n.Exhibits a) (right : m.Exhibits b) : n.same m = a.same b := by
  rw [same_eq, left.kind, left.name, right.kind, right.name]
  cases a with
  | blank =>
      cases b with
      | blank =>
          rw [left.children, right.children]
          rfl
      | _ =>
          rfl
  | keyword word =>
      cases b with
      | keyword word' =>
          rw [left.children, right.children, Bool.eq_iff_iff]
          simp [Outline.kind?, samePayload, sameAll, Outline.children, Outline.same]
      | _ =>
          rfl
  | number x =>
      cases b with
      | number y =>
          rw [left.children, right.children, left.number x rfl, right.number y rfl]
          simp [Outline.kind?, samePayload, sameAll, Outline.children, Outline.same, Binary64.sameBits_bits]
      | _ =>
          rfl
  | string text =>
      cases b with
      | string text' =>
          rw [left.children, right.children, left.text text rfl, right.text text' rfl]
          simp [Outline.kind?, samePayload, sameAll, Outline.children, Outline.same]
      | _ =>
          rfl
  | array items =>
      cases b with
      | array others =>
          rw [left.items, right.items, Value.sameAll_branchItems]
          rfl
      | _ =>
          rfl
  | object members =>
      cases b with
      | object others =>
          rw [left.members, right.members, Value.sameAll_branchMembers]
          rfl
      | _ =>
          rfl

end Branch

namespace Tree

/-- Held from the outside in, two trees are equal exactly if they show the same. -/
theorem same_branch (t u : Tree) : t.branch.same u.branch = t.same u :=
  t.exhibits_branch.same u.exhibits_branch

end Tree

/-! ## Equality -/

/-- Equality is an equivalence, and on trees it is that of what they show. Complete trees whose texts are well formed
are equal exactly if they are written the same once `0` stands for each `-0`. What documents are decoded to is equal
exactly if the documents say the same: white space, escapes, the spelling of numbers and the options make no
difference. -/
theorem equality_sound :
    Equivalence (fun n m : Branch => n.same m = true) ∧
      (∀ t u : Tree, t.branch.same u.branch = t.same u) ∧
      (∀ t u : Tree, t.isComplete = true → u.isComplete = true →
        (∀ text ∈ t.visible.texts, Utf8.WellFormed text) → (∀ text ∈ u.visible.texts, Utf8.WellFormed text) →
          (t.branch.same u.branch = true ↔
            plusZeros (encode t.branch.display) = plusZeros (encode u.branch.display))) ∧
      ∀ (o o' : Options) (bytes bytes' : Bytes) (v w : Value), (Session.start o).decode bytes = .ok v →
        (Session.start o').decode bytes' = .ok w →
          ((Tree.ofValue v).branch.same (Tree.ofValue w).branch = true ↔ AlikeDocuments o o' bytes bytes') := by
  refine ⟨Branch.equivalence_same, Tree.same_branch, ?_, ?_⟩
  · intro t u complete complete' wellFormed wellFormed'
    rcases Tree.isComplete_iff.1 complete with ⟨v, rfl⟩
    rcases Tree.isComplete_iff.1 complete' with ⟨w, rfl⟩
    rw [Tree.same_branch, Tree.display_branch, Tree.display_branch]
    change v.outline.same w.outline = true ↔ _
    rw [Value.same_outline]
    exact Text.same_iff_plusZeros wellFormed wellFormed'
  · intro o o' bytes bytes' v w decoded decoded'
    rw [Tree.same_branch]
    change v.outline.same w.outline = true ↔ _
    rw [Value.same_outline]
    exact Grammar.same_iff_alikeDocuments (Session.document_of_decode decoded) (Session.document_of_decode decoded')

/-- `[-0,"\b"]` says the same as an array with `0.0`, the character itself, and white space that only the lenient
mode has. -/
theorem equality_sound_respelled :
    (Session.start {}).decode [0x5B, 0x2D, 0x30, 0x2C, 0x22, 0x5C, 0x62, 0x22, 0x5D] =
        .ok (.array [.number (.zero true), .string [Byte.backspace]]) ∧
      (Session.start { maxDepth := 1, lenientWhitespace := true }).decode
          [0x5B, 0x01, 0x30, 0x2E, 0x30, 0x2C, 0x22, 0x08, 0x22, 0x5D] =
        .ok (.array [.number (.zero false), .string [Byte.backspace]]) ∧
      AlikeDocuments {} { maxDepth := 1, lenientWhitespace := true }
        [0x5B, 0x2D, 0x30, 0x2C, 0x22, 0x5C, 0x62, 0x22, 0x5D]
        [0x5B, 0x01, 0x30, 0x2E, 0x30, 0x2C, 0x22, 0x08, 0x22, 0x5D] ∧
      plusZeros (encode (Tree.ofValue (.array [.number (.zero true), .string [Byte.backspace]])).branch.display) =
        plusZeros
          (encode (Tree.ofValue (.array [.number (.zero false), .string [Byte.backspace]])).branch.display) := by
  have left : (Session.start {}).decode [0x5B, 0x2D, 0x30, 0x2C, 0x22, 0x5C, 0x62, 0x22, 0x5D] =
      .ok (.array [.number (.zero true), .string [Byte.backspace]]) := by
    decide +kernel
  have right : (Session.start { maxDepth := 1, lenientWhitespace := true }).decode
      [0x5B, 0x01, 0x30, 0x2E, 0x30, 0x2C, 0x22, 0x08, 0x22, 0x5D] =
        .ok (.array [.number (.zero false), .string [Byte.backspace]]) := by
    decide +kernel
  have wellFormed : ∀ text ∈ [[Byte.backspace]], Utf8.WellFormed text := by
    refine List.forall_mem_singleton.2 (Utf8.encode_lossy_eq_iff.1 ?_)
    decide +kernel
  rcases equality_sound with ⟨-, -, written, decoded⟩
  refine ⟨left, right, (decoded _ _ _ _ _ _ left right).1 ?_, (written (.ofValue _) (.ofValue _) rfl rfl ?_ ?_).1 ?_⟩
  · decide +kernel
  · exact wellFormed
  · exact wellFormed
  · decide +kernel

end JsonStream
