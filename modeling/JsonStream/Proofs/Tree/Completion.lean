import JsonStream.Proofs.Branch.Innermost
import JsonStream.Proofs.Grammar.Accepts

/-!
# Completing a document

Nearly every tree that bytes have led to can be led on to the end of a value: whatever is open can be
closed, and where a value is still to come `null` will do, which no limit excludes. Two places are dead
ends, both at the innermost value: an escape in a string that must not grow, and a literal that no number
within the limit begins with.

- `Branch.Stuck` — the two dead ends
- `Ends.completes` — the end of a value can be followed by the ends of all containers around it
- `completes_of_not_stuck`, `not_completes_of_stuck` — the two directions
- `exists_completion_iff` — of sessions
-/

namespace JsonStream

open Grammar (Fits Ends Reads)

/-! ## Dead ends -/

/-- The value can not go on to its end: it is a string with an escape to come and no room for it, or a
number that can not become one within the limit. -/
def Branch.Stuck (o : Options) (n : Branch) : Prop :=
  (n.stage = some .escape ∧ o.maxTokenLength = some n.token.size) ∨
    (n.stage = some .number ∧
      ¬ ∃ literal, n.token.toList <+: literal ∧ Fits o literal.length ∧ (Binary64.read? literal).isSome)

def Tree.Stuck (o : Options) (t : Tree) : Prop :=
  t.branch.innermost.Stuck o

def Tree.Completes (o : Options) (t : Tree) : Prop :=
  ∃ bytes u, t.feedAll o bytes = .ok u ∧ u.isComplete = true

variable {o : Options} {outer : List Frame} {t u : Tree} {b : UInt8} {events : List Event} {v : Value}
  {bytes : Bytes} {role : Role} {text literal : Array UInt8}

namespace Tree

/-- An escape is stuck exactly if the string has reached the limit already. -/
theorem stuck_escape_iff :
    (live outer (.escape role text)).Stuck o ↔ o.maxTokenLength = some text.size := by
  simp [Stuck, Branch.Stuck, stage_innermost, innermostStage?, Focus.innermostStage, token_innermost_escape]

/-- A number is stuck exactly if no longer literal within the limit can be read. -/
theorem stuck_number_iff :
    (live outer (.number literal)).Stuck o ↔
      ¬ ∃ longer, literal.toList <+: longer ∧ Fits o longer.length ∧ (Binary64.read? longer).isSome := by
  simp [Stuck, Branch.Stuck, innermost_number, Branch.scalar]

/-- Only inside an escape or a number is a tree stuck. -/
theorem exists_focus_of_stuck (stuck : t.Stuck o) :
    ∃ outer, (∃ role text, t = live outer (.escape role text)) ∨
      (∃ literal, t = live outer (.number literal)) := by
  rcases stuck with ⟨escape, -⟩ | ⟨number, -⟩
  · rcases exists_escape_of_innermost escape with ⟨outer, role, text, same⟩
    exact ⟨outer, .inl ⟨role, text, same⟩⟩
  · rcases exists_number_of_innermost number with ⟨outer, literal, same⟩
    exact ⟨outer, .inr ⟨literal, same⟩⟩

/-! ## Ways to the end -/

/-- What can go on to the end after some bytes can do so from before them. -/
theorem Completes.of_feedAll (run : t.feedAll o bytes = .ok u) (completes : u.Completes o) :
    t.Completes o := by
  rcases completes with ⟨rest, last, restRun, complete⟩
  exact ⟨bytes ++ rest, last, feedAll_trans run restRun, complete⟩

theorem Completes.of_takes (takes : t.Takes o b u events) (completes : u.Completes o) :
    t.Completes o :=
  completes.of_feedAll (feedAll_singleton (feed_of_takes takes))

end Tree

/-- After the end of a value every container around it can be closed. -/
theorem Grammar.Ends.completes (ends : Ends outer v t) : t.Completes o := by
  have space : o.isSpace Byte.space = true := by
    unfold Options.isSpace
    split
    · decide
    · decide
  -- By induction on the containers: each closes after the value in it and is then such a value itself.
  induction outer generalizing t v with
  | nil =>
      -- A number outside all containers needs a byte after it; white space will do after any value.
      have last : t.Takes o Byte.space (.settled (.document v)) [] := ends.takes (.inl space) (.space space)
      exact ⟨[Byte.space], _, Tree.feedAll_singleton (Tree.feed_of_takes last), rfl⟩
  | cons f outer ih =>
      cases f with
      | array items =>
          have close : t.Takes o Byte.closeBracket _ _ := ends.takes (.inr (by decide)) .closeArray
          exact .of_takes close (ih .settled)
      | object members name =>
          have close : t.Takes o Byte.closeBrace _ _ := ends.takes (.inr (by decide)) .closeObject
          exact .of_takes close (ih .settled)

namespace Tree

/-- After a value the containers around it can be closed, one after another. -/
theorem completes_of_settled (place : Settled) : (settled place).Completes o := by
  cases place with
  | document v =>
      exact ⟨[], _, rfl, rfl⟩
  | element outer items =>
      have close : (settled (.element outer items)).Takes o Byte.closeBracket _ _ := .settled .closeArray
      exact .of_takes close (Ends.settled.completes)
  | member outer members =>
      have close : (settled (.member outer members)).Takes o Byte.closeBrace _ _ := .settled .closeObject
      exact .of_takes close (Ends.settled.completes)

/-! Where a value is to come, it can be null. -/

/-- Where a value is to come, `null` will do. -/
theorem completes_of_blank (outer : List Frame) : (live outer .blank).Completes o := by
  rcases (Grammar.drives_of_keyword o outer .null).fromBlank with ⟨last, run, ends⟩
  exact .of_feedAll run ends.completes

/-- Where an element is to come, `null` will do, and the array can be closed after it. -/
theorem completes_of_element (outer : List Frame) (items : Array Value) :
    (live outer (.element items)).Completes o := by
  rcases (Grammar.drives_of_keyword o (.array items :: outer) .null).fromElement with ⟨last, run, ends⟩
  exact .of_feedAll run ends.completes

/-- After a name, a colon and `null` will do. -/
theorem completes_of_colon (outer : List Frame) (members : Array (Bytes × Value)) (name : Bytes) :
    (live outer (.colon members name)).Completes o :=
  .of_takes .colon (completes_of_blank _)

/-- A string can always be closed, whatever its length is. -/
theorem completes_of_string (outer : List Frame) (role : Role) (text : Array UInt8) :
    (live outer (.string role text)).Completes o := by
  -- The string may end now. A name then has its colon and a value to come.
  cases role with
  | value =>
      exact .of_takes .stringEnd (Ends.settled.completes)
  | name members =>
      exact .of_takes .stringEnd (completes_of_colon outer members text.toList)

/-- Where a name is to come, an empty one will do, with `null` for it. -/
theorem completes_of_name (outer : List Frame) (members : Array (Bytes × Value)) :
    (live outer (.name members)).Completes o :=
  .of_takes .nameBegins (completes_of_string outer _ _)

/-- An escape needs room for one byte. -/
theorem completes_of_escape (fits : Fits o text.size) (notStuck : o.maxTokenLength ≠ some text.size) :
    (live outer (.escape role text)).Completes o := by
  have room : Fits o (text.size + 1) := by
    intro limit limited
    have le : text.size ≤ limit := fits limit limited
    have ne : text.size ≠ limit := by
      rintro rfl
      exact notStuck limited
    omega
  -- Any escape will do, since all of them stand for one byte.
  have decoded : Escape.decode? Byte.lowerN = some Byte.lineFeed := by decide
  exact .of_takes (.escape decoded room) (completes_of_string outer _ _)

/-- A literal that begins a number can be completed to that number. -/
theorem completes_of_number {longer : Bytes} (begins : literal.toList <+: longer)
    (fits : Fits o longer.length) (read : (Binary64.read? longer).isSome) :
    (live outer (.number literal)).Completes o := by
  rcases begins with ⟨rest, rfl⟩
  rcases Option.isSome_iff_exists.1 read with ⟨x, found⟩
  rcases Binary64.read?_eq_some_iff.1 found with ⟨d, numeral, -⟩
  -- What is missing of the numeral consists of bytes that a number goes on with.
  have parts : ∀ b ∈ rest, Byte.inNumber b = true := fun b mem =>
    numeral.inNumber b (List.mem_append_right _ mem)
  rcases Grammar.feedAll_number parts (by simpa using fits) with ⟨whole, content, run⟩
  have value : numberOf whole = .ok (.number x) := numberOf_eq_ok_iff.2 ⟨x, by rw [content, found], rfl⟩
  exact .of_feedAll run (Ends.number value).completes

/-- Whatever is not stuck can be completed. -/
theorem completes_of_not_stuck (reads : Reads o t bytes) (notStuck : ¬ t.Stuck o) : t.Completes o := by
  -- The places are those of what has been read, which knows that keywords and limits are kept to.
  cases reads with
  | settled place_eq lead value after =>
      exact completes_of_settled _
  | blank lead =>
      exact completes_of_blank _
  | keyword lead begun more =>
      exact .of_feedAll (Grammar.feedAll_keyword o _ more) (Ends.settled.completes)
  | number lead first fits =>
      rw [stuck_number_iff, not_not] at notStuck
      rcases notStuck with ⟨longer, begins, fits, read⟩
      exact completes_of_number begins fits read
  | string lead content fits =>
      exact completes_of_string _ _ _
  | escape lead content fits =>
      rw [stuck_escape_iff] at notStuck
      exact completes_of_escape fits notStuck
  | element lead =>
      exact completes_of_element _ _
  | name lead =>
      exact completes_of_name _ _
  | colon lead quoted blank =>
      exact completes_of_colon _ _ _

/-! ## No way to the end -/

/-- A number that is led to the end of the document becomes one that can be read. -/
theorem exists_longer_of_completes (fits : Fits o literal.size)
    (run : (live outer (.number literal)).feedAll o bytes = .ok u) (complete : u.isComplete = true) :
    ∃ longer, literal.toList <+: longer ∧ Fits o longer.length ∧ (Binary64.read? longer).isSome := by
  -- The number goes on byte by byte until one ends it, and then it is read.
  induction bytes generalizing literal with
  | nil =>
      -- Nothing follows, but a number in progress is no end of a document.
      cases run
      cases complete
  | cons b rest ih =>
      rcases feedAll_cons_eq_ok_iff.1 run with ⟨next, events, taken, run⟩
      cases takes_of_feed taken with
      | numberNext part room =>
          rcases ih (by simpa using room) run with ⟨longer, begins, longerFits, read⟩
          refine ⟨longer, ?_, longerFits, read⟩
          rw [Array.toList_push] at begins
          exact (List.prefix_append _ _).trans begins
      | numberEnd ends value after =>
          rcases numberOf_eq_ok_iff.1 value with ⟨x, found, -⟩
          exact ⟨literal.toList, List.prefix_refl _, by simpa using fits, by simp [found]⟩

/-- What is stuck is refused or goes on stuck, whatever the next byte is. -/
theorem not_completes_of_stuck (reads : Reads o t bytes) (stuck : t.Stuck o) : ¬ t.Completes o := by
  rintro ⟨rest, u, run, complete⟩
  rcases exists_focus_of_stuck stuck with ⟨outer, ⟨role, text, rfl⟩ | ⟨literal, rfl⟩⟩
  · rw [stuck_escape_iff] at stuck
    -- The next byte would have to be an escape, for which there is no room.
    cases rest with
    | nil =>
        cases run
        cases complete
    | cons b rest =>
        rcases feedAll_cons_eq_ok_iff.1 run with ⟨next, events, taken, -⟩
        cases takes_of_feed taken with
        | escape decoded room =>
            exact absurd (room _ stuck) (by omega)
  · cases reads with
    | number lead first fits =>
        exact stuck_number_iff.1 stuck (exists_longer_of_completes fits run complete)

end Tree

/-! ## Sessions -/

namespace Session

variable {s : Session}

/-- What has been accepted can be completed exactly if its innermost value is not stuck. -/
theorem exists_completion_iff (run : (start o).feedAll bytes = .ok s) :
    (∃ rest last, (start o).feedAll (bytes ++ rest) = .ok last ∧ last.isComplete = true) ↔
      ¬ s.current.Stuck o := by
  rcases current_of_feedAll run with ⟨treeRun, -⟩
  -- The tree decides: position and options of the session are no part of the question.
  have reads : Reads o s.current bytes := Grammar.reads_of_feedAll treeRun
  constructor
  · rintro ⟨rest, last, longRun, complete⟩ stuck
    rcases current_of_feedAll longRun with ⟨longTreeRun, -⟩
    rw [isComplete_eq_current] at complete
    -- The longer run goes through the tree that the shorter has led to.
    rw [Tree.feedAll_append, treeRun] at longTreeRun
    exact Tree.not_completes_of_stuck reads stuck ⟨rest, last.current, longTreeRun, complete⟩
  · intro notStuck
    rcases Tree.completes_of_not_stuck reads notStuck with ⟨rest, u, restRun, complete⟩
    rcases exists_feedAll (Tree.feedAll_trans treeRun restRun) with ⟨last, longRun, rfl⟩
    exact ⟨rest, last, longRun, by rwa [isComplete_eq_current]⟩

/-- Where one byte is all that a string may have, `"b` can still be ended and `"b\` can not. -/
theorem completion_at_token_limit :
    (∃ rest last, (start { maxTokenLength := some 1 }).feedAll ([Byte.quote, Byte.lowerB] ++ rest) = .ok last ∧
        last.isComplete = true) ∧
      ¬ ∃ rest last, (start { maxTokenLength := some 1 }).feedAll
          ([Byte.quote, Byte.lowerB, Byte.backslash] ++ rest) = .ok last ∧
        last.isComplete = true := by
  have open_run : (start { maxTokenLength := some 1 }).feedAll [Byte.quote, Byte.lowerB] =
      .ok ⟨{ maxTokenLength := some 1 }, some (.live [] (.string .value #[Byte.lowerB])), ⟨2, 1, 3⟩⟩ := by
    rfl
  have stuck_run : (start { maxTokenLength := some 1 }).feedAll [Byte.quote, Byte.lowerB, Byte.backslash] =
      .ok ⟨{ maxTokenLength := some 1 }, some (.live [] (.escape .value #[Byte.lowerB])), ⟨3, 1, 4⟩⟩ := by
    rfl
  refine ⟨(exists_completion_iff open_run).2 ?_, fun completion => ?_⟩
  · intro stuck
    rcases Tree.exists_focus_of_stuck stuck with ⟨outer, ⟨role, text, same⟩ | ⟨literal, same⟩⟩
    · cases same
    · cases same
  · exact (exists_completion_iff stuck_run).1 completion (Tree.stuck_escape_iff.2 rfl)

end Session

end JsonStream
