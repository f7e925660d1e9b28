import JsonStream.Proofs.Session.Spacing
import JsonStream.Proofs.Tree.Limits
import JsonStream.Session.Snapshots

/-!
# Lenient white space

Skipping all control bytes is skipping the white space of JSON in a text in which the other control bytes are
blanked. Inside strings no byte is skipped, and there the text is as it was. Outside them a control byte is
refused by a keyword for what it is not, ends a number, or changes nothing, and a space does the same.

- `Brackets.getElem?_blanked` — which bytes are blanked
- `Tree.feed_lenient` — one byte
- `Session.snapshots_blanked` — a run
- `Session.lenient_blanks` — all that can be seen, from the start
-/

namespace JsonStream

open Brackets (Mode Scan)

variable {o o' : Options} {b c : UInt8} {t : Tree} {bytes : Bytes}

/-! ## Blanked texts -/

namespace Brackets

/-- The mode of the scanner does not depend on its stack. -/
theorem mode_next (s : Scan) (b : UInt8) : (s.next b).mode = s.mode.next b := by
  rcases s with ⟨mode, stack⟩
  cases mode with
  | outside =>
      simp only [Scan.next, Scan.outside, Mode.next]
      split
      · rfl
      · split
        · rfl
        · split <;> rfl
  | inside =>
      simp only [Scan.next, Mode.next]
      split
      · rfl
      · split <;> rfl
  | escaped =>
      rfl

theorem blankedFrom_cons (s : Scan) (b : UInt8) (rest : Bytes) :
    blankedFrom s (b :: rest) = s.mode.blank b :: blankedFrom (s.next b) rest :=
  rfl

/-- Every byte is kept or blanked where it stands. -/
theorem getElem?_blankedFrom (s : Scan) (bytes : Bytes) (i : Nat) :
    (blankedFrom s bytes)[i]? = bytes[i]?.map ((bytes.take i).foldl Mode.next s.mode).blank := by
  induction bytes generalizing s i with
  | nil =>
      rfl
  | cons b rest ih =>
      cases i with
      | zero =>
          rfl
      | succ i =>
          rw [blankedFrom_cons, List.getElem?_cons_succ, ih, mode_next]
          rfl

/-- A byte is blanked or not by the quotes and backslashes before it. -/
theorem getElem?_blanked (bytes : Bytes) (i : Nat) :
    (blanked bytes)[i]? = bytes[i]?.map ((bytes.take i).foldl Mode.next .outside).blank :=
  getElem?_blankedFrom {} bytes i

/-- The byte inside the string stays, and so do line feeds. -/
example : blanked [0x01, 0x22, 0x01, 0x22, 0x0A, 0x1F] = [0x20, 0x22, 0x01, 0x22, 0x0A, 0x20] := by
  rfl

end Brackets

/-! ## What counts as white space -/

/-- In lenient mode, the odd control bytes are white space. -/
theorem Options.isSpace_lenient_of_odd (odd : Brackets.isOddControl b = true) : o.lenient.isSpace b = true := by
  simp only [Brackets.isOddControl, Bool.and_eq_true, decide_eq_true_eq] at odd
  exact decide_eq_true (UInt8.le_of_lt odd.1.1.1)

/-- Of the other bytes the same are white space either way. -/
theorem Options.isSpace_lenient_eq (usual : ¬ Brackets.isOddControl b = true) :
    o.lenient.isSpace b = o.strict.isSpace b := by
  simp only [Brackets.isOddControl, Bool.and_eq_true, decide_eq_true_eq, bne_iff_ne, ne_eq, not_and_or,
    not_not] at usual
  rcases usual with ((notControl | rfl) | rfl) | rfl
  · by_cases space : b = Byte.space
    · subst space
      rfl
    · have beyond : Byte.space < b := UInt8.lt_of_le_of_ne (UInt8.not_lt.1 notControl) (Ne.symm space)
      rw [isSpace_eq_false _ beyond, isSpace_eq_false _ beyond]
  · rfl
  · rfl
  · rfl

/-- A blanked byte ends no line, and neither does a space. -/
theorem Position.advance_blank (p : Position) (m : Mode) (b : UInt8) : p.advance (m.blank b) = p.advance b := by
  by_cases odd : m = .outside ∧ Brackets.isOddControl b = true
  · have notLine : b ≠ Byte.lineFeed := by
      rintro rfl
      exact absurd odd.2 (by decide)
    rw [Mode.blank, if_pos odd, advance, advance, if_neg notLine]
    rfl
  · rw [Mode.blank, if_neg odd]

/-! ## One byte -/

namespace Tree

/-- Only the limits matter, and whether the byte is white space. -/
theorem feed_congr (depth : o.maxDepth = o'.maxDepth) (token : o.maxTokenLength = o'.maxTokenLength)
    (space : o.isSpace b = o'.isSpace b) : t.feed o b = t.feed o' b := by
  simp only [feed, offer, Settled.feed, feedElement, feedName, feedColon, feedString, feedEscape, feedNumber,
    beginValue, Options.extend, depth, token, space]

/-- Inside a string nothing is white space. -/
theorem feed_congr_of_string (token : o.maxTokenLength = o'.maxTokenLength)
    (inString : t.scanned.mode ≠ .outside) : t.feed o b = t.feed o' b := by
  cases t with
  | settled place =>
      cases place <;> exact absurd rfl inString
  | live outer focus =>
      cases focus with
      | string role text =>
          simp only [feed_string, feedString, Options.extend, token]
      | escape role text =>
          simp only [feed_escape, feedEscape, Options.extend, token]
      | _ =>
          exact absurd rfl inString

/-- Outside strings one byte of white space is like another, also under other options. -/
theorem feed_space_congr (outside : t.scanned.mode = .outside) (space : o.isSpace b = true)
    (space' : o'.isSpace c = true) : t.feed o b = t.feed o' c := by
  by_cases between : t.branch.inToken = false
  · rw [feed_of_takes (takes_of_between between space), feed_of_takes (takes_of_between between space')]
  · rw [inToken_branch] at between
    cases t with
    | settled place =>
        cases place <;> exact absurd rfl between
    | live outer focus =>
        cases focus with
        | keyword word seen =>
            have notNext : ∀ {o : Options} {b : UInt8}, o.isSpace b = true → word.spelling[seen]? ≠ some b :=
              fun space next => Options.not_isSpace _ (Keyword.space_lt_of_mem (List.mem_of_getElem? next)) space
            rw [feed_keyword, feed_keyword, feedKeyword, feedKeyword, if_neg (notNext space),
              if_neg (notNext space')]
        | number literal =>
            -- Both end the number, and both change nothing after it.
            rw [feed_number_of_ends (.inl space), feed_number_of_ends (.inl space')]
            cases numberOf literal with
            | error fault =>
                rfl
            | ok v =>
                simp only [Except.bind, Settled.feed, space, space', if_true]
        | string role text =>
            cases role <;> cases outside
        | escape role text =>
            cases role <;> cases outside
        | _ =>
            exact absurd rfl between

/-- A byte does what the blanked byte does without the other control bytes as white space. -/
theorem feed_lenient (o : Options) (t : Tree) (b : UInt8) :
    t.feed o.lenient b = t.feed o.strict (t.scanned.mode.blank b) := by
  by_cases blanked : t.scanned.mode = .outside ∧ Brackets.isOddControl b = true
  · rw [Mode.blank, if_pos blanked]
    exact feed_space_congr blanked.1 (Options.isSpace_lenient_of_odd blanked.2) rfl
  · rw [Mode.blank, if_neg blanked]
    by_cases outside : t.scanned.mode = .outside
    · exact feed_congr rfl rfl (Options.isSpace_lenient_eq fun odd => blanked ⟨outside, odd⟩)
    · exact feed_congr_of_string rfl outside

/-- The same for many bytes. -/
theorem feedAll_blanked (o : Options) (t : Tree) (bytes : Bytes) :
    t.feedAll o.lenient bytes = t.feedAll o.strict (Brackets.blankedFrom t.scanned bytes) := by
  induction bytes generalizing t with
  | nil =>
      rfl
  | cons b rest ih =>
      rw [Brackets.blankedFrom_cons, feedAll_cons, feedAll_cons, ← feed_lenient]
      cases taken : t.feed o.lenient b with
      | error fault =>
          rfl
      | ok result =>
          rcases result with ⟨u, events⟩
          rw [next_of_takes (takes_of_feed taken)]
          exact ih u

end Tree

/-! ## Sessions -/

namespace Session

theorem finish_under (s : Session) (o : Options) : (s.under o).finish.answer = s.finish.answer := by
  rcases s with ⟨options, tree, position⟩
  cases tree with
  | none =>
      rfl
  | some t =>
      simp only [under, finish]
      cases t.finish with
      | error fault =>
          rfl
      | ok v =>
          rfl

/-- What a session shows does not depend on its options. -/
theorem snapshot_under (s : Session) (o : Options) (status : Status) :
    (s.under o).snapshot status = s.snapshot status := by
  simp only [snapshot, finish_under]
  rfl

/-- A session shows the same for a text and for the blanked text, byte by byte, wherever it has come to. -/
theorem snapshots_blanked (o : Options) (s : Session) (bytes : Bytes) :
    (s.under o.lenient).snapshots bytes =
      (s.under o.strict).snapshots (Brackets.blankedFrom s.current.scanned bytes) := by
  induction bytes generalizing s with
  | nil =>
      rfl
  | cons b rest ih =>
      have alike := Tree.feed_lenient o s.current b
      rw [Brackets.blankedFrom_cons, snapshots, snapshots]
      cases taken : s.current.feed o.lenient b with
      | error fault =>
          rw [taken] at alike
          rw [feed_of_error (s := s.under o.lenient) taken, feed_of_error (s := s.under o.strict) alike.symm]
          rfl
      | ok result =>
          rcases result with ⟨u, events⟩
          rw [taken] at alike
          rw [feed_of_ok (s := s.under o.lenient) taken, feed_of_ok (s := s.under o.strict) alike.symm,
            Tree.next_of_takes (Tree.takes_of_feed taken)]
          simp only [under, Position.advance_blank]
          have shown : ∀ after : Session,
              (after.under o.lenient).snapshot u.status = (after.under o.strict).snapshot u.status := by
            intro after
            rw [snapshot_under, snapshot_under]
          -- Both sessions hold the same tree at the same position.
          exact congrArg₂ List.cons (congrArg Except.ok (shown ⟨o, some u, s.position.advance b⟩))
            (ih ⟨o, some u, s.position.advance b⟩)

/-- Whole documents: lenient mode is strict mode on the blanked text. -/
theorem decode_blanked (o : Options) (bytes : Bytes) :
    (start o.lenient).decode bytes = (start o.strict).decode (Brackets.blanked bytes) := by
  have shown : (start o.lenient).snapshots bytes = (start o.strict).snapshots (Brackets.blanked bytes) :=
    snapshots_blanked o (start o) bytes
  rw [decode_eq_of_snapshots, decode_eq_of_snapshots, shown]
  rfl

/-- Skipping all control bytes is skipping the white space of JSON in the blanked text, which has a space for each
odd control byte that the quotes and backslashes before it leave outside strings. Under any limits a session shows
the same for both, byte by byte up to the first that is refused, and refuses that for the same cause at the same
position. So both texts are decoded or refused alike, and a tree from the outside in goes the same way. -/
theorem lenient_blanks (o : Options) (bytes : Bytes) :
    (∀ i : Nat, (Brackets.blanked bytes)[i]? =
      bytes[i]?.map ((bytes.take i).foldl Mode.next .outside).blank) ∧
      (start o.lenient).snapshots bytes = (start o.strict).snapshots (Brackets.blanked bytes) ∧
      (start o.lenient).decode bytes = (start o.strict).decode (Brackets.blanked bytes) ∧
      Branch.fresh.feedEach (bytes.map fun b => (o.lenient, b)) =
        Branch.fresh.feedEach ((Brackets.blanked bytes).map fun b => (o.strict, b)) := by
  refine ⟨Brackets.getElem?_blanked bytes, snapshots_blanked o (start o) bytes, decode_blanked o bytes, ?_⟩
  rw [Tree.feedEach_fresh, Tree.feedEach_fresh]
  exact congrArg (Except.map Tree.branch) (Tree.feedAll_blanked o .empty bytes)

end Session

end JsonStream
