import JsonStream.Proofs.Branch.Chain
import JsonStream.Proofs.Grammar.Accepts
import JsonStream.Session.Spacing

/-!
# White space between tokens

Where no token is in progress, white space is accepted and leaves everything as it is. So texts that differ by
white space at such places are decoded alike, and the place after a number is no exception: the white space
ends the number, and what follows does the same as it would have done right after the number.

- `Tree.takes_of_between` — one byte of white space
- `Tree.accepts_gap_iff` — white space before the rest of a text
- `Session.spacing_neutral` — texts
-/

namespace JsonStream

open Grammar (Blank Ends)

variable {o : Options} {outer : List Frame} {literal : Array UInt8} {b : UInt8} {t : Tree} {v : Value}
  {gap rest : Bytes} {fault : Fault}

namespace Tree

/-! ## One byte -/

/-- Being inside a token, on the tree. -/
theorem inToken_branch (t : Tree) : t.branch.inToken = t.innermostStage?.any Stage.isToken := by
  rw [Branch.inToken, stage_innermost]

/-- Where no token is in progress white space changes nothing. -/
theorem takes_of_between (between : t.branch.inToken = false) (space : o.isSpace b = true) : Takes o t b t [] := by
  rw [inToken_branch] at between
  cases t with
  | settled place =>
      exact .settled (.space space)
  | live outer focus =>
      cases focus with
      | blank =>
          exact .blankSpace space
      | element items =>
          exact .elementSpace space
      | name members =>
          exact .nameSpace space
      | colon members called =>
          exact .colonSpace space
      | _ =>
          cases between

/-! ## Before the rest of a text -/

/-- A number that can not be read refuses whatever would come after it. -/
theorem exists_error_of_unread (unread : numberOf literal = .error fault) (part : Byte.inNumber b = false) :
    ∃ cause, (live outer (.number literal)).feed o b = .error cause := by
  by_cases ends : o.isSpace b = true ∨ Byte.followsNumber b = true
  · rw [feed_number_of_ends ends, unread]
    exact ⟨_, rfl⟩
  · exact ⟨_, feed_number_of_neither part ends⟩

/-- The input may end after a number as it may after the value that the number is. -/
theorem finish_number_eq_ok_iff {x : Binary64} (read : Binary64.read? literal.toList = some x) :
    (live outer (.number literal)).finish = .ok v ↔ (settled (.of outer (.number x))).finish = .ok v := by
  cases outer with
  | nil =>
      rw [finish, numberOf_eq_ok_iff.2 ⟨x, read, rfl⟩]
      rfl
  | cons f outer =>
      -- Inside a container neither is the end of a document.
      constructor
      · intro ended
        cases ended
      · intro ended
        cases f <;> cases ended

/-- The bytes lead the tree to the end of a document with this value. -/
def Accepts (o : Options) (t : Tree) (bytes : Bytes) (v : Value) : Prop :=
  ∃ u, t.feedAll o bytes = .ok u ∧ u.finish = .ok v

theorem accepts_cons_iff {bytes : Bytes} :
    t.Accepts o (b :: bytes) v ↔ ∃ u events, t.feed o b = .ok (u, events) ∧ u.Accepts o bytes v := by
  simp only [Accepts, feedAll_cons_eq_ok_iff]
  constructor
  · rintro ⟨w, ⟨u, events, taken, run⟩, ended⟩
    exact ⟨u, events, taken, w, run, ended⟩
  · rintro ⟨u, events, taken, w, run, ended⟩
    exact ⟨w, ⟨u, events, taken, run⟩, ended⟩

/-- What follows some bytes is accepted by the tree that they lead to. -/
theorem accepts_append_iff {first second : Bytes} {u : Tree} (run : t.feedAll o first = .ok u) :
    t.Accepts o (first ++ second) v ↔ u.Accepts o second v := by
  rw [Accepts, feedAll_append, run]
  rfl

/-- After a number a text that does not go on with it is accepted as it is after the value. -/
theorem accepts_number_iff {x : Binary64} (read : Binary64.read? literal.toList = some x)
    (apart : ∀ b, rest.head? = some b → Byte.inNumber b = false) :
    (live outer (.number literal)).Accepts o rest v ↔ (settled (.of outer (.number x))).Accepts o rest v := by
  cases rest with
  | nil =>
      simp only [Accepts, feedAll_nil, Except.ok.injEq, exists_eq_left']
      exact finish_number_eq_ok_iff read
  | cons b rest =>
      rw [accepts_cons_iff, accepts_cons_iff, feed_after_number read (apart b rfl)]

/-- A literal that is no number does not become one by what stands apart from it. -/
theorem not_accepts_of_unread (unread : numberOf literal = .error fault)
    (apart : ∀ b, rest.head? = some b → Byte.inNumber b = false) :
    ¬ (live outer (.number literal)).Accepts o rest v := by
  cases rest with
  | nil =>
      rintro ⟨u, run, ended⟩
      cases run
      cases outer with
      | nil =>
          rw [finish, unread] at ended
          cases ended
      | cons f outer =>
          cases ended
  | cons b rest =>
      rw [accepts_cons_iff]
      rintro ⟨u, events, taken, -⟩
      rcases exists_error_of_unread unread (apart b rfl) with ⟨cause, refused⟩
      rw [refused] at taken
      cases taken

/-- White space before the rest of a text makes no difference where it may stand. -/
theorem accepts_gap_iff (place : t.branch.inToken = false ∨ (t.branch.innermost.stage = some .number ∧
      ∀ b, rest.head? = some b → Byte.inNumber b = false)) (blank : Blank o gap) :
    t.Accepts o (gap ++ rest) v ↔ t.Accepts o rest v := by
  rcases place with between | ⟨number, apart⟩
  · have stays : t.feedAll o gap = .ok t :=
      Grammar.feedAll_blank (fun b space => takes_of_between between space) blank
    exact accepts_append_iff stays
  · rcases exists_number_of_innermost number with ⟨outer, literal, rfl⟩
    cases gap with
    | nil =>
        rfl
    | cons w gap =>
        cases value : numberOf literal with
        | ok n =>
            -- The white space ends the number.
            have ends : Ends outer n (live outer (.number literal)) := .number value
            rcases numberOf_eq_ok_iff.1 value with ⟨x, read, rfl⟩
            rw [accepts_append_iff (ends.feedAll_blank_cons blank), accepts_number_iff read apart]
        | error fault =>
            have space : o.isSpace w = true := (Grammar.Blank.cons_iff.1 blank).1
            refine iff_of_false ?_ (not_accepts_of_unread value apart)
            apply not_accepts_of_unread value
            rintro b head
            cases head
            exact Byte.not_inNumber_of_ends (.inl space)

end Tree

/-! ## Sessions -/

namespace Session

variable {s : Session}

/-- Between tokens white space changes nothing. -/
theorem unmoved_of_between (between : s.current.branch.inToken = false) (space : s.options.isSpace b = true) :
    Unmoved s b := by
  have taken : s.current.feed s.options b = .ok (s.current, []) :=
    Tree.feed_of_takes (Tree.takes_of_between between space)
  have status : s.current.status = if s.isComplete then .complete else .pending := by
    rw [Tree.status, isComplete_eq_current]
  refine ⟨?_, ?_, ?_, ?_⟩
  · rw [feed_of_ok taken, status]
  · rw [feed_of_ok taken]
  · rw [feed_of_ok taken, completion, isComplete_eq_current]
    cases s.current.isComplete <;> rfl
  · rw [Tree.feed_branch, taken, ← status]
    rfl

/-- One more run of white space where it may stand, and the document is decoded as before. -/
theorem decode_eq_ok_iff_of_spaced {text spaced : Bytes} (more : Spaced o text spaced) (v : Value) :
    (start o).decode text = .ok v ↔ (start o).decode spaced = .ok v := by
  cases more with
  | intro run place blank =>
      have treeRun := (current_of_feedAll run).1
      rw [decode_eq_ok_iff_run, decode_eq_ok_iff_run]
      exact (Tree.accepts_append_iff treeRun).trans
        ((Tree.accepts_gap_iff place blank).symm.trans (Tree.accepts_append_iff treeRun).symm)

/-- White space between tokens makes no difference: not to a session that is fed it, and not to the value of a
text into which it is put, or from which it is taken away, any number of times. -/
theorem spacing_neutral :
    (∀ (s : Session) (b : UInt8), s.current.branch.inToken = false → s.options.isSpace b = true → Unmoved s b) ∧
    ∀ o text respaced, Relation.EqvGen (Spaced o) text respaced →
      ∀ v, (start o).decode text = .ok v ↔ (start o).decode respaced = .ok v := by
  constructor
  · intro s b between space
    exact unmoved_of_between between space
  · intro o text respaced related v
    induction related with
    | rel text spaced more =>
        exact decode_eq_ok_iff_of_spaced more v
    | refl text =>
        rfl
    | symm text respaced _ ih =>
        exact ih.symm
    | trans text between respaced _ _ first second =>
        exact first.trans second

/-- A line feed inside `[` changes nothing, and `[1]` is decoded like the same with a space before the number and
a line feed after it. -/
theorem spacing_neutral_array :
    (∃ s, (start {}).feedAll [0x5B] = .ok s ∧ Unmoved s Byte.lineFeed) ∧
      (start {}).decode [0x5B, 0x20, 0x31, 0x0A, 0x5D] =
        .ok (.array [.number ⟨false, 4607182418800017408, by decide⟩]) := by
  have opened : (start {}).feedAll [0x5B] = .ok ⟨{}, some (.live [] (.element #[])), ⟨1, 1, 2⟩⟩ := by
    rfl
  have inNumber : (start {}).feedAll [0x5B, 0x20, 0x31] =
      .ok ⟨{}, some (.live [.array #[]] (.number #[0x31])), ⟨3, 1, 4⟩⟩ := by
    rfl
  have before : Spaced {} [0x5B, 0x31, 0x5D] [0x5B, 0x20, 0x31, 0x5D] :=
    @Spaced.intro {} [0x5B] [0x20] [0x31, 0x5D] _ opened (.inl rfl) (.singleton rfl)
  have apart : ∀ b, [Byte.closeBracket].head? = some b → Byte.inNumber b = false := by
    rintro b ⟨⟩
    rfl
  have after : Spaced {} [0x5B, 0x20, 0x31, 0x5D] [0x5B, 0x20, 0x31, 0x0A, 0x5D] :=
    @Spaced.intro {} [0x5B, 0x20, 0x31] [0x0A] [0x5D] _ inNumber (.inr ⟨rfl, apart⟩) (.singleton rfl)
  refine ⟨⟨_, opened, spacing_neutral.1 _ _ rfl rfl⟩, ?_⟩
  have decoded : (start {}).decode [0x5B, 0x31, 0x5D] =
      .ok (.array [.number ⟨false, 4607182418800017408, by decide⟩]) := by
    decide +kernel
  exact (spacing_neutral.2 {} _ _ (.trans _ _ _ (.rel _ _ before) (.rel _ _ after)) _).1 decoded

end Session

end JsonStream
