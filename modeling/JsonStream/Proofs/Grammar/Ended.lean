import JsonStream.Grammar.Stream
import JsonStream.Proofs.Branch.Agreement
import JsonStream.Proofs.Grammar.Accepts
import JsonStream.Session.Run

/-!
# The byte by which a document ends

A session shows that its value has ended as soon as the end is known, which is at the last byte of the value
or, if that is a number, at the white space after it. No part of a value shows its end to the session, so
values can be taken from a stream one by one.

- `Grammar.feedAll_eq_document_iff` — when the tree is complete
- `Session.endsFirst_of_spells`, `Session.endsFirst_of_number` — at which byte it becomes so
- `Session.takeAll_segments` — streams
- `Session.completion_signalled` — all of it, for sessions
-/

namespace JsonStream

namespace Grammar

variable {o : Options} {s value before after : Bytes} {v w : Value} {t : Tree} {b : UInt8} {depth : Nat}

/-! ## The last byte of a value -/

/-- A number ends with a byte of numbers, so nothing after it belongs to it. -/
theorem Number.last {x : Binary64} (number : Number o s x) :
    ∃ init b, s = init ++ [b] ∧ Byte.inNumber b = true := by
  rcases number.first with ⟨first, rest, rfl, -⟩
  rcases number.numeral with ⟨d, numeral, -⟩
  refine ⟨(first :: rest).dropLast, (first :: rest).getLast (List.cons_ne_nil _ _), ?_, ?_⟩
  · exact (List.dropLast_append_getLast _).symm
  · exact numeral.inNumber _ (List.getLast_mem _)

/-- Whatever counts as white space, no value ends with it. -/
theorem Spells.last (spells : Spells o depth s v) : ∃ init b, s = init ++ [b] ∧ Byte.space < b := by
  cases spells with
  | keyword word =>
      cases word with
      | null =>
          exact ⟨[0x6E, 0x75, 0x6C], 0x6C, rfl, by decide⟩
      | bool c =>
          cases c with
          | false =>
              exact ⟨[0x66, 0x61, 0x6C, 0x73], 0x65, rfl, by decide⟩
          | true =>
              exact ⟨[0x74, 0x72, 0x75], 0x65, rfl, by decide⟩
  | number number =>
      rcases number.last with ⟨init, b, rfl, part⟩
      exact ⟨init, b, rfl, Byte.space_lt_of_inNumber part⟩
  | string quoted =>
      cases quoted with
      | intro content fits =>
          exact ⟨_, _, rfl, by decide⟩
  | _ =>
      exact ⟨_, _, rfl, by decide⟩

/-- No white space ends a text that a value ends. -/
theorem Spells.not_space_of_append (spells : Spells o depth value v) (same : before ++ value = s ++ [b]) :
    ¬ o.isSpace b = true := by
  rcases spells.last with ⟨init, c, rfl, beyond⟩
  rw [← List.append_assoc] at same
  obtain rfl : c = b := (List.append_singleton_inj.1 same).2
  exact o.not_isSpace beyond

/-! ## Complete trees -/

/-- White space after a value, and some of it if that is a number, makes the end of the value known. -/
theorem Ends.sealed (ends : Ends [] v t) (blank : Blank o after) (apart : v.kind = .number → after ≠ []) :
    t.feedAll o after = .ok (.settled (.document v)) := by
  cases after with
  | nil =>
      cases ends with
      | settled =>
          rfl
      | number number =>
          -- A number that has nothing after it is still in progress.
          rcases numberOf_eq_ok_iff.1 number with ⟨x, -, rfl⟩
          exact absurd rfl (apart rfl)
  | cons b rest =>
      exact ends.feedAll_blank_cons blank

/-- A text that is known to end leads the empty tree to its document. -/
theorem feedAll_of_ended (ended : Ended o s v) : Tree.feedAll o .empty s = .ok (.settled (.document v)) := by
  rcases ended with ⟨before, value, after, rfl, blankBefore, spells, blankAfter, apart⟩
  rcases (drives_of_spells spells [] rfl).fromBlank with ⟨last, run, ends⟩
  have start : Tree.feedAll o .empty before = .ok .empty :=
    feedAll_blank (fun b space => .blankSpace space) blankBefore
  exact Tree.feedAll_trans (Tree.feedAll_trans start run) (ends.sealed blankAfter apart)

/-- The byte at which a number is known to be the whole document is white space. -/
theorem space_of_takes_number {x : Binary64} {events : List Event}
    (takes : t.Takes o b (.settled (.document (.number x))) events) : o.isSpace b = true := by
  rcases Tree.complete_or_number_of_takes takes rfl with complete | ⟨literal, rfl⟩
  · exact ((Tree.feed_complete_eq_ok_iff complete).1 (Tree.feed_of_takes takes)).1
  · cases takes with
    | numberEnd ends value rest =>
        rcases numberOf_eq_ok_iff.1 value with ⟨y, -, rfl⟩
        exact (Settled.takes_document_iff.1 rest).1

/-- A text that leads the empty tree to a document is known to end. -/
theorem ended_of_feedAll (run : Tree.feedAll o .empty s = .ok (.settled (.document v))) : Ended o s v := by
  rcases document_of_reads (reads_of_feedAll run) rfl with
    ⟨before, value, after, rfl, blankBefore, spells, blankAfter⟩
  refine ⟨before, value, after, rfl, blankBefore, spells, blankAfter, ?_⟩
  -- Were there no byte after a number, then the last byte of the number would be white space.
  rintro number rfl
  obtain ⟨x, rfl⟩ : ∃ x, v = .number x := by
    cases v with
    | number x =>
        exact ⟨x, rfl⟩
    | _ =>
        cases number
  rcases spells.last with ⟨init, b, rfl, beyond⟩
  rw [List.append_nil, ← List.append_assoc] at run
  rcases Tree.feedAll_concat_eq_ok_iff.1 run with ⟨u, events, -, taken⟩
  exact absurd (space_of_takes_number (Tree.takes_of_feed taken)) (o.not_isSpace beyond)

/-- The tree is complete exactly if the end of the document is known. -/
theorem feedAll_eq_document_iff :
    Tree.feedAll o .empty s = .ok (.settled (.document v)) ↔ Ended o s v :=
  ⟨ended_of_feedAll, feedAll_of_ended⟩

/-- White space after the end changes nothing. -/
theorem Ended.append (ended : Ended o s v) (blank : Blank o after) : Ended o (s ++ after) v := by
  rcases ended with ⟨before, value, between, rfl, blankBefore, spells, blankBetween, apart⟩
  refine ⟨before, value, between ++ after, by simp, blankBefore, spells, blankBetween.append blank, ?_⟩
  intro number
  exact List.append_ne_nil_of_left_ne_nil (apart number) after

/-- A number is known to end only by white space. -/
theorem Ended.space_last (ended : Ended o (s ++ [b]) v) (number : v.kind = .number) : o.isSpace b = true := by
  rcases ended with ⟨before, value, after, same, -, -, blankAfter, apart⟩
  rcases List.eq_nil_or_concat' after with rfl | ⟨init, c, rfl⟩
  · exact absurd rfl (apart number)
  · rw [← List.append_assoc] at same
    obtain rfl : b = c := (List.append_singleton_inj.1 same).2
    exact blankAfter b (by simp)

end Grammar

open Grammar (Blank Spells Ended)

variable {o : Options} {v : Value} {before value bytes rest lead : Bytes} {b : UInt8}

/-- A complete tree is fed nothing but white space, and stays as it is. -/
theorem Tree.feedAll_of_complete {t u : Tree} (complete : t.isComplete = true)
    (run : t.feedAll o rest = .ok u) : Blank o rest ∧ u = t := by
  induction rest with
  | nil =>
      cases run
      exact ⟨.nil, rfl⟩
  | cons b rest ih =>
      rcases feedAll_cons_eq_ok_iff.1 run with ⟨next, events, taken, later⟩
      rcases (feed_complete_eq_ok_iff complete).1 taken with ⟨space, rfl, -⟩
      rcases ih later with ⟨blank, same⟩
      exact ⟨Blank.append (.singleton space) blank, same⟩

namespace Session

variable {s r : Session}

/-! ## First ends -/

theorem tree_eq_iff_current :
    s.tree = some (.settled (.document v)) ↔ s.current = .settled (.document v) := by
  rcases s with ⟨options, tree, position⟩
  cases tree with
  | none =>
      exact ⟨nofun, nofun⟩
  | some t =>
      exact Option.some_inj

/-- The end of a document is not known before the last byte, unless the rest is white space after an
earlier end. -/
theorem endsFirst_of_ended (ended : Ended o bytes v)
    (first : ∀ before rest, bytes = before ++ rest → rest ≠ [] → Blank o rest → ¬ Ended o before v) :
    EndsFirst o bytes v := by
  have run := Grammar.feedAll_of_ended ended
  constructor
  · rcases exists_feedAll run with ⟨s, sessionRun, current⟩
    exact ⟨s, sessionRun, tree_eq_iff_current.2 current⟩
  · rintro before rest rfl nonempty
    rcases Tree.feedAll_append_eq_ok_iff.1 run with ⟨t, early, later⟩
    rcases exists_feedAll early with ⟨s, sessionRun, rfl⟩
    refine ⟨s, sessionRun, ?_⟩
    rw [isComplete_eq_current]
    cases complete : s.current.isComplete with
    | false =>
        rfl
    | true =>
        -- An earlier end would be of the same document, which the rest leaves as it is.
        rcases Tree.feedAll_of_complete complete later with ⟨blank, same⟩
        rw [← same] at early
        exact absurd (Grammar.ended_of_feedAll early) (first before rest rfl nonempty blank)

/-- A value other than a number ends with its last byte. -/
theorem endsFirst_of_spells (blank : Blank o before) (spells : Spells o 0 value v)
    (other : v.kind ≠ .number) : EndsFirst o (before ++ value) v := by
  have ended : Ended o (before ++ value) v :=
    ⟨before, value, [], by simp, blank, spells, .nil, fun number => absurd number other⟩
  apply endsFirst_of_ended ended
  intro early rest same nonempty blankRest _
  rcases List.eq_nil_or_concat' rest with rfl | ⟨init, b, rfl⟩
  · exact nonempty rfl
  · rw [← List.append_assoc] at same
    exact spells.not_space_of_append same (blankRest b (by simp))

/-- A number ends with the first byte of white space after it. -/
theorem endsFirst_of_number (blank : Blank o before) (spells : Spells o 0 value v)
    (number : v.kind = .number) (space : o.isSpace b = true) : EndsFirst o (before ++ value ++ [b]) v := by
  have ended : Ended o (before ++ value ++ [b]) v :=
    ⟨before, value, [b], rfl, blank, spells, .singleton space, fun _ => List.cons_ne_nil _ _⟩
  apply endsFirst_of_ended ended
  intro early rest same nonempty blankRest endedEarly
  rcases List.eq_nil_or_concat' rest with rfl | ⟨between, c, rfl⟩
  · exact nonempty rfl
  · rw [← List.append_assoc] at same
    have whole : before ++ value = early ++ between := (List.append_singleton_inj.1 same).1
    -- Then the number itself would end with white space.
    have endedLate := endedEarly.append (Blank.append_iff.1 blankRest).1
    rw [← whole] at endedLate
    rcases spells.last with ⟨init, d, rfl, beyond⟩
    rw [← List.append_assoc] at endedLate
    exact o.not_isSpace beyond (endedLate.space_last number)

/-! ## Streams -/

/-- Nothing is taken while no value ends. -/
theorem takeAll_of_pending (run : s.feedAll bytes = .ok r)
    (pending : ∀ before after, bytes = before ++ after → before ≠ [] →
      ∃ q, s.feedAll before = .ok q ∧ q.isComplete = false) (rest : Bytes) :
    s.takeAll (bytes ++ rest) = r.takeAll rest := by
  induction bytes generalizing s with
  | nil =>
      cases run
      rfl
  | cons b more ih =>
      rw [feedAll] at run
      cases answer : (s.feed b).answer with
      | error failure =>
          simp only [answer] at run
          cases run
      | ok status =>
          simp only [answer] at run
          obtain ⟨q, single, incomplete⟩ := pending [b] more rfl (List.cons_ne_nil _ _)
          simp only [feedAll, answer, Except.ok.injEq] at single
          subst single
          have still : status = .pending := by
            rw [status_of_feed answer, Tree.status, ← isComplete_eq_current, incomplete]
            rfl
          rw [List.cons_append, takeAll, answer, still]
          apply ih run
          intro before after same _
          have split : b :: more = b :: before ++ after := congrArg (b :: ·) same
          obtain ⟨q, early, incomplete⟩ := pending (b :: before) after split (List.cons_ne_nil _ _)
          simp only [feedAll, answer] at early
          exact ⟨q, early, incomplete⟩

/-- A value that ends is taken, and the session starts over with the bytes after it. -/
theorem takeAll_of_endsFirst (ends : EndsFirst o bytes v) (rest : Bytes) :
    (start o).takeAll (bytes ++ rest) =
      ((start o).takeAll rest).map fun (trees, last) => (.settled (.document v) :: trees, last) := by
  rcases ends with ⟨⟨s, run, tree⟩, first⟩
  rcases List.eq_nil_or_concat' bytes with rfl | ⟨init, b, rfl⟩
  · cases run
    cases tree
  · rcases feedAll_concat_eq_ok_iff.1 run with ⟨r, status, early, answer, rfl⟩
    have pending := takeAll_of_pending early (fun before after same _ =>
      first before (after ++ [b]) (by rw [same, List.append_assoc]) (by simp)) (b :: rest)
    have ended : status = .complete := by
      rw [status_of_feed answer, current, tree]
      rfl
    have options : (r.feed b).session.options = o := (current_of_feedAll run).2
    rw [List.append_assoc, List.singleton_append, pending, takeAll, answer, ended]
    simp only [take, reset, options, tree, Option.toList_some, List.singleton_append]

/-- What is decoded is a document, by the grammar. -/
theorem document_of_decode (decodes : (start o).decode bytes = .ok v) : Grammar.Document o bytes v := by
  rcases decode_eq_ok_iff_run.1 decodes with ⟨t, run, ended⟩
  exact Grammar.document_of_reads (Grammar.reads_of_feedAll run) ended

/-- A document in a stream ends somewhere before the next. -/
theorem exists_endsFirst {e : Segment} (blank : Blank o lead) (accepted : e.Accepted o) :
    ∃ bytes rest, lead ++ e.bytes = bytes ++ rest ∧ EndsFirst o bytes e.value ∧ Blank o rest := by
  rcases document_of_decode accepted.decodes with
    ⟨before, value, after, same, blankBefore, spells, blankAfter⟩
  have blankLead : Blank o (lead ++ before) := blank.append blankBefore
  have blankRest : Blank o (after ++ e.gap) := blankAfter.append accepted.blank
  have split : lead ++ e.bytes = lead ++ before ++ value ++ (after ++ e.gap) := by
    simp only [Segment.bytes, same, List.append_assoc]
  by_cases number : e.value.kind = .number
  · cases separator : after ++ e.gap with
    | nil =>
        exact absurd (List.append_eq_nil_iff.1 separator).2 (accepted.apart number)
    | cons b rest =>
        rw [separator] at split blankRest
        rcases Blank.cons_iff.1 blankRest with ⟨space, restBlank⟩
        refine ⟨lead ++ before ++ value ++ [b], rest, ?_, ?_, restBlank⟩
        · rw [split, List.append_assoc _ [b], List.singleton_append]
        · exact endsFirst_of_number blankLead spells number space
  · exact ⟨lead ++ before ++ value, after ++ e.gap, split,
      endsFirst_of_spells blankLead spells number, blankRest⟩

/-- From a stream of documents exactly their values are taken, in order. -/
theorem takeAll_segments {segments : List Segment} (blank : Blank o lead)
    (accepted : ∀ e ∈ segments, e.Accepted o) :
    ∃ last, (start o).takeAll (lead ++ segments.flatMap Segment.bytes) =
      .ok (segments.map fun e => .settled (.document e.value), last) := by
  -- The white space left over from one document leads to the next, so the induction is for any lead.
  induction segments generalizing lead with
  | nil =>
      have unmoved : ∀ before, Blank o before → Tree.feedAll o .empty before = .ok .empty :=
        fun before blank => Grammar.feedAll_blank (fun b space => .blankSpace space) blank
      rcases exists_feedAll (unmoved lead blank) with ⟨s, run, -⟩
      refine ⟨s, takeAll_of_pending run ?_ []⟩
      rintro before after rfl -
      rcases exists_feedAll (unmoved before (Blank.append_iff.1 blank).1) with ⟨q, early, current⟩
      refine ⟨q, early, ?_⟩
      rw [isComplete_eq_current, current]
      rfl
  | cons e segments ih =>
      rcases exists_endsFirst blank (accepted e (by simp)) with ⟨bytes, rest, same, ends, blankRest⟩
      rcases ih blankRest fun e mem => accepted e (by simp [mem]) with ⟨last, others⟩
      refine ⟨last, ?_⟩
      rw [List.flatMap_cons, ← List.append_assoc, same, List.append_assoc, takeAll_of_endsFirst ends, others]
      rfl

/-! ## Sessions -/

/-- What a session that has been fed some bytes shows of the end of its value. -/
structure Signals (o : Options) (bytes : Bytes) (s : Session) : Prop where
  complete : s.isComplete = true ↔ ∃ v, Ended o bytes v
  value : ∀ v, s.tree = some (.settled (.document v)) ↔ Ended o bytes v
  root : s.isComplete = s.current.branch.isComplete
  -- So did the status of the last byte, also as it came up through all containers.
  status : ∀ before b, bytes = before ++ [b] → ∃ r status, (start o).feedAll before = .ok r ∧
    (r.feed b).answer = .ok status ∧ r.current.branch.feed o b = .ok (s.current.branch, status) ∧
    (status = .complete ↔ s.isComplete = true)
  space : s.isComplete = true → ∀ b, o.isSpace b = true →
    (s.feed b).answer = .ok .complete ∧ (s.feed b).session.tree = s.tree
  other : s.isComplete = true → ∀ b, o.isSpace b = false →
    (s.feed b).answer = .error ⟨.unexpectedByte b, s.position⟩

/-- The status of the last byte, for the session and for the tree from the outside in. -/
theorem status_of_concat (run : (start o).feedAll (before ++ [b]) = .ok s) :
    ∃ r status, (start o).feedAll before = .ok r ∧ (r.feed b).answer = .ok status ∧
      r.current.branch.feed o b = .ok (s.current.branch, status) ∧
      (status = .complete ↔ s.isComplete = true) := by
  rcases feedAll_concat_eq_ok_iff.1 run with ⟨r, status, early, answer, rfl⟩
  refine ⟨r, status, early, answer, ?_, ?_⟩
  · rcases feed_answer_eq_ok_iff.1 answer with ⟨t, events, taken, rfl⟩
    obtain rfl : r.options = o := (current_of_feedAll early).2
    rw [Tree.feed_branch, taken, feed_of_ok taken]
    rfl
  · rw [status_of_feed answer, Tree.status, isComplete_eq_current]
    cases (r.feed b).session.current.isComplete <;> simp

/-- White space after the end is accepted and changes nothing. -/
theorem feed_space_of_complete (complete : s.isComplete = true) (space : s.options.isSpace b = true) :
    (s.feed b).answer = .ok .complete ∧ (s.feed b).session.tree = s.tree := by
  rw [isComplete_eq_current] at complete
  rcases Tree.isComplete_iff.1 complete with ⟨v, current⟩
  have taken : s.current.feed s.options b = .ok (s.current, []) :=
    (Tree.feed_complete_eq_ok_iff complete).2 ⟨space, rfl, rfl⟩
  rw [feed_of_ok taken, Tree.status, if_pos complete]
  exact ⟨rfl, ((tree_eq_iff_current.2 current).trans (congrArg some current.symm)).symm⟩

/-- Any other byte after the end is refused for itself. -/
theorem feed_other_of_complete (complete : s.isComplete = true) (other : s.options.isSpace b = false) :
    (s.feed b).answer = .error ⟨.unexpectedByte b, s.position⟩ := by
  rw [isComplete_eq_current] at complete
  rcases Tree.isComplete_iff.1 complete with ⟨v, current⟩
  have refused : s.current.feed s.options b = .error (.unexpectedByte b) := by
    rw [current, Tree.feed_settled, Settled.feed, other]
    rfl
  rw [feed_of_error refused]
  rfl

/-- A session signals the end of its value at exactly the byte by which the end is known, and values can be
taken from a stream on that signal. -/
theorem completion_signalled (o : Options) :
    (∀ bytes s, (start o).feedAll bytes = .ok s → Signals o bytes s) ∧
      (∀ before value v, Blank o before → Spells o 0 value v → v.kind ≠ .number →
        EndsFirst o (before ++ value) v) ∧
      (∀ before value v b, Blank o before → Spells o 0 value v → v.kind = .number → o.isSpace b = true →
        EndsFirst o (before ++ value ++ [b]) v) ∧
      ∀ lead (segments : List Segment), Blank o lead → (∀ e ∈ segments, e.Accepted o) →
        ∃ last, (start o).takeAll (lead ++ segments.flatMap Segment.bytes) =
          .ok (segments.map fun e => .settled (.document e.value), last) := by
  refine ⟨?_, ?_, ?_, ?_⟩
  · intro bytes s run
    obtain ⟨treeRun, rfl⟩ := current_of_feedAll run
    have value : ∀ v, s.current = .settled (.document v) ↔ Ended s.options bytes v := by
      intro v
      rw [← Grammar.feedAll_eq_document_iff, treeRun, Except.ok.injEq]
    refine ⟨?_, ?_, ?_, ?_, ?_, ?_⟩
    · rw [isComplete_eq_current, Tree.isComplete_iff]
      exact exists_congr value
    · intro v
      rw [tree_eq_iff_current]
      exact value v
    · rw [isComplete_eq_current, s.current.shows_branch.isComplete]
    · rintro before b rfl
      exact status_of_concat run
    · intro complete b space
      exact feed_space_of_complete complete space
    · intro complete b other
      exact feed_other_of_complete complete other
  · intro before value v blank spells other
    exact endsFirst_of_spells blank spells other
  · intro before value v b blank spells number space
    exact endsFirst_of_number blank spells number space
  · intro lead segments blank accepted
    exact takeAll_segments blank accepted

/-- The number `12`, an empty array and a string, with no more between them than a space after the number. -/
theorem stream_of_three :
    ∃ last, (start {}).takeAll [0x31, 0x32, 0x20, 0x5B, 0x5D, 0x22, 0x61, 0x22] =
      .ok ([.settled (.document (.number ⟨false, 4622945017495814144, by decide⟩)),
        .settled (.document (.array [])), .settled (.document (.string [0x61]))], last) := by
  let number : Segment := ⟨[0x31, 0x32], .number ⟨false, 4622945017495814144, by decide⟩, [0x20]⟩
  let array : Segment := ⟨[0x5B, 0x5D], .array [], []⟩
  let string : Segment := ⟨[0x22, 0x61, 0x22], .string [0x61], []⟩
  have accepted : ∀ e ∈ [number, array, string], e.Accepted {} := by
    intro e mem
    rcases mem with _ | ⟨_, _ | ⟨_, _ | ⟨_, mem⟩⟩⟩
    · exact ⟨by decide +kernel, .singleton rfl, fun _ => List.cons_ne_nil _ _⟩
    · exact ⟨rfl, .nil, nofun⟩
    · exact ⟨rfl, .nil, nofun⟩
    · cases mem
  have bytes : [] ++ [number, array, string].flatMap Segment.bytes =
      [0x31, 0x32, 0x20, 0x5B, 0x5D, 0x22, 0x61, 0x22] := by
    rfl
  have taken := (completion_signalled {}).2.2.2 [] [number, array, string] .nil accepted
  rwa [bytes] at taken

end Session

end JsonStream
