import JsonStream.Proofs.Branch.Agreement
import JsonStream.Session.Run

/-!
# The end of the input

The end of the input ends what white space would end outside all containers: a value that has ended stays
as it is, and a number is read. Whatever else is in progress is cut short, even a number inside a container,
which white space would have ended.

- `Tree.stage?_eq_none_iff`, `Tree.stage?_eq_number_iff`, `Tree.finish_of_stage` — all trees, sorted by what
  the outermost value waits for
- `Tree.finish_branch` — the end of the input from the outside in
- `Session.ends_alike` — the end of the input beside a byte of white space
-/

namespace JsonStream

variable {o : Options} {t u : Tree} {b : UInt8} {events : List Event} {stage : Stage}

/-! ## What the outermost value waits for -/

theorem Frame.stage_ne_number (f : Frame) : f.stage ≠ .number := by
  cases f <;> nofun

/-- Inside containers the outermost value waits for something of its own, and that is no number. -/
theorem Frame.stage_eq_number {outer : List Frame} {inside : Stage}
    (waits : (outer.getLast?.map Frame.stage).getD inside = .number) : outer = [] ∧ inside = .number := by
  cases last : outer.getLast? with
  | none =>
      rw [last] at waits
      exact ⟨List.getLast?_eq_none_iff.1 last, waits⟩
  | some f =>
      rw [last] at waits
      exact absurd waits f.stage_ne_number

namespace Tree

/-- A tree waits for nothing exactly if its document has ended. -/
theorem stage?_eq_none_iff : t.stage? = none ↔ ∃ v, t = settled (.document v) := by
  constructor
  · intro ended
    cases t with
    | settled place =>
        cases place with
        | document v =>
            exact ⟨v, rfl⟩
        | element outer items =>
            cases ended
        | member outer members =>
            cases ended
    | live outer focus =>
        cases ended
  · rintro ⟨v, rfl⟩
    rfl

/-- The outermost value is a number exactly if the document is one. -/
theorem stage?_eq_number_iff : t.stage? = some .number ↔ ∃ literal, t = live [] (.number literal) := by
  constructor
  · intro waits
    cases t with
    | settled place =>
        cases place with
        | document v =>
            cases waits
        | element outer items =>
            cases (Frame.stage_eq_number (Option.some.inj waits)).2
        | member outer members =>
            cases (Frame.stage_eq_number (Option.some.inj waits)).2
    | live outer focus =>
        rcases Frame.stage_eq_number (Option.some.inj waits) with ⟨rfl, inside⟩
        cases focus with
        | number literal =>
            exact ⟨literal, rfl⟩
        | string role text =>
            cases role <;> cases inside
        | escape role text =>
            cases role <;> cases inside
        | _ =>
            cases inside
  · rintro ⟨literal, rfl⟩
    rfl

/-- The end of the input cuts short whatever waits for something, unless that is a number. -/
theorem finish_of_stage (waits : t.stage? = some stage) (other : stage ≠ .number) :
    t.finish = .error .unexpectedEnd := by
  unfold finish
  split
  · cases waits
  · cases waits
    exact absurd rfl other
  · rfl

end Tree

theorem Branch.finish_of_stage {n : Branch} (waits : n.stage = some stage) (other : stage ≠ .number) :
    n.finish = .error .unexpectedEnd := by
  unfold finish
  split
  · rename_i ended
    rw [waits] at ended
    cases ended
  · rename_i number
    rw [waits] at number
    exact absurd (Option.some.inj number) other
  · rfl

/-- Both forms of a tree end alike at the end of the input. -/
theorem Tree.finish_branch (t : Tree) : t.branch.finish = t.finish.map (Value.branch none) := by
  cases waits : t.stage? with
  | none =>
      rcases stage?_eq_none_iff.1 waits with ⟨v, rfl⟩
      cases v <;> rfl
  | some stage =>
      by_cases number : stage = .number
      · subst number
        rcases stage?_eq_number_iff.1 waits with ⟨literal, rfl⟩
        rw [finish, numberOf, branch, Frame.plug, Focus.branch, Branch.scalar, Branch.finish]
        cases Binary64.read? literal.toList with
        | none =>
            rfl
        | some x =>
            rfl
      · have same : t.branch.stage = some stage := t.shows_branch.stage.trans waits
        rw [finish_of_stage waits number, Branch.finish_of_stage same number]
        rfl

/-! ## White space -/

/-- White space completes a document that is complete, or a number. -/
theorem Tree.stage?_of_space (space : o.isSpace b = true) (taken : t.feed o b = .ok (u, events))
    (complete : u.isComplete = true) : t.stage? = none ∨ t.stage? = some .number := by
  rcases takes_space space (takes_of_feed taken) with
    ⟨rfl, -⟩ | ⟨outer, role, text, -, rfl, -⟩ | ⟨outer, literal, v, rfl, -, rfl, -⟩
  · exact .inl (stage?_eq_none_iff.2 (isComplete_iff.1 complete))
  · cases complete
  · rcases isComplete_iff.1 complete with ⟨w, same⟩
    rcases Settled.of_eq_document (Tree.settled.inj same) with ⟨rfl, -⟩
    exact .inr rfl

/-- Outside all containers white space gives what the end of the input gives. -/
theorem Tree.feed_space_of_stage (space : o.isSpace b = true)
    (ends : t.stage? = none ∨ t.stage? = some .number) :
    t.feed o b = t.finish.map fun v => (settled (.document v), []) := by
  rcases ends with ended | number
  · rcases stage?_eq_none_iff.1 ended with ⟨v, rfl⟩
    exact feed_eq_ok_iff.2 (.settled (.space space))
  · rcases stage?_eq_number_iff.1 number with ⟨literal, rfl⟩
    rw [feed_number_of_ends (.inl space), finish]
    cases numberOf literal with
    | error fault =>
        rfl
    | ok v =>
        exact Settled.feed_eq_ok_iff.2 (.space space)

/-- Only a document that has ended or is a number is ended by the end of the input. -/
theorem Tree.stage?_of_finish {v : Value} (ended : t.finish = .ok v) :
    t.stage? = none ∨ t.stage? = some .number := by
  cases waits : t.stage? with
  | none =>
      exact .inl rfl
  | some stage =>
      by_cases number : stage = .number
      · exact .inr (congrArg some number)
      · rw [finish_of_stage waits number] at ended
        cases ended

/-! ## Sessions -/

namespace Session

variable {s : Session}

/-- What the end of the input and a byte of white space bring to a session. The root is its tree from the
outside in. -/
structure EndsAlike (s : Session) (b : UInt8) : Prop where
  ok_iff : (∃ v, s.finish.answer = .ok v) ↔ (s.feed b).answer = .ok .complete
  -- It is the same value, and both ways the root becomes the same, with all that it remembers.
  value : ∀ v, s.finish.answer = .ok v → (s.feed b).session.tree = some (.settled (.document v)) ∧
    s.current.branch.finish = .ok (v.branch none) ∧
    s.current.branch.feed s.options b = .ok (v.branch none, .complete)
  complete_iff : (s.feed b).answer = .ok .complete ↔ s.current.branch.stage = none ∨
    (s.current.branch.stage = some .number ∧ (Binary64.read? s.current.branch.token.toList).isSome)
  broken : s.current.branch.stage = some .number → Binary64.read? s.current.branch.token.toList = none →
    s.finish.answer = .error ⟨.invalidNumber s.current.branch.token.toList, s.position⟩ ∧
      (s.feed b).answer = .error ⟨.invalidNumber s.current.branch.token.toList, s.position⟩
  rest : s.current.branch.stage ≠ none → s.current.branch.stage ≠ some .number →
    s.finish.answer = .error ⟨.unexpectedEnd, s.position⟩

/-- If the end of the input ends the document, so does white space. -/
theorem feed_space_of_finish (space : s.options.isSpace b = true) {v : Value}
    (ended : s.current.finish = .ok v) :
    s.current.feed s.options b = .ok (.settled (.document v), []) := by
  rw [Tree.feed_space_of_stage space (Tree.stage?_of_finish ended), ended]
  rfl

/-- White space completes exactly what the end of the input completes. -/
theorem feed_space_complete_iff (space : s.options.isSpace b = true) :
    (s.feed b).answer = .ok .complete ↔ ∃ v, s.current.finish = .ok v := by
  constructor
  · intro completed
    rcases feed_answer_eq_ok_iff.1 completed with ⟨u, events, taken, status⟩
    have complete : u.isComplete = true := by
      cases done : u.isComplete with
      | true =>
          rfl
      | false =>
          rw [Tree.status, done] at status
          cases status
    rw [Tree.feed_space_of_stage space (Tree.stage?_of_space space taken complete)] at taken
    cases ended : s.current.finish with
    | error fault =>
        rw [ended] at taken
        cases taken
    | ok v =>
        exact ⟨v, rfl⟩
  · rintro ⟨v, ended⟩
    exact feed_answer_eq_ok_iff.2 ⟨_, _, feed_space_of_finish space ended, rfl⟩

theorem stage_branch (s : Session) : s.current.branch.stage = s.current.stage? :=
  s.current.shows_branch.stage

/-- The value that the end of the input hands out is also what white space makes of the root. -/
theorem feed_space_of_answer (space : s.options.isSpace b = true) {v : Value} (answer : s.finish.answer = .ok v) :
    (s.feed b).session.tree = some (.settled (.document v)) ∧
      s.current.branch.finish = .ok (v.branch none) ∧
      s.current.branch.feed s.options b = .ok (v.branch none, .complete) := by
  have ended : s.current.finish = .ok v := (finish_answer_eq_ok_iff s).1 answer
  have taken := feed_space_of_finish space ended
  refine ⟨?_, ?_, ?_⟩
  · rw [feed_of_ok taken]
  · rw [Tree.finish_branch, ended]
    rfl
  · rw [Tree.feed_branch, taken]
    rfl

/-- The input may end after a whole value, and after a number that can be read. -/
theorem exists_finish_iff :
    (∃ v, s.current.finish = .ok v) ↔ s.current.branch.stage = none ∨
      (s.current.branch.stage = some .number ∧ (Binary64.read? s.current.branch.token.toList).isSome) := by
  rw [stage_branch]
  constructor
  · rintro ⟨v, ended⟩
    rcases Tree.stage?_of_finish ended with complete | number
    · exact .inl complete
    · rcases Tree.stage?_eq_number_iff.1 number with ⟨literal, current⟩
      rw [current] at ended
      rcases numberOf_eq_ok_iff.1 ended with ⟨x, read, -⟩
      refine .inr ⟨number, ?_⟩
      rw [current]
      exact Option.isSome_of_eq_some read
  · rintro (complete | ⟨number, read⟩)
    · rcases Tree.stage?_eq_none_iff.1 complete with ⟨v, current⟩
      rw [current]
      exact ⟨v, rfl⟩
    · rcases Tree.stage?_eq_number_iff.1 number with ⟨literal, current⟩
      rw [current] at read ⊢
      rcases Option.isSome_iff_exists.1 read with ⟨x, found⟩
      exact ⟨.number x, numberOf_eq_ok_iff.2 ⟨x, found, rfl⟩⟩

/-- A literal that is no number is refused both ways, with the same failure. -/
theorem invalidNumber_of_unread (space : s.options.isSpace b = true)
    (number : s.current.branch.stage = some .number)
    (unread : Binary64.read? s.current.branch.token.toList = none) :
    s.finish.answer = .error ⟨.invalidNumber s.current.branch.token.toList, s.position⟩ ∧
      (s.feed b).answer = .error ⟨.invalidNumber s.current.branch.token.toList, s.position⟩ := by
  rw [stage_branch] at number
  have ended : s.current.finish = .error (.invalidNumber s.current.branch.token.toList) := by
    rcases Tree.stage?_eq_number_iff.1 number with ⟨literal, current⟩
    rw [current] at unread ⊢
    exact numberOf_eq_error_iff.2 ⟨unread, rfl⟩
  have refused := Tree.feed_space_of_stage space (.inr number)
  rw [ended] at refused
  exact ⟨finish_answer_eq_error_iff.2 ⟨ended, rfl⟩, feed_answer_eq_error_iff.2 ⟨refused, rfl⟩⟩

/-- Anything else in progress is cut short, whatever it is. -/
theorem unexpectedEnd_of_stage (incomplete : s.current.branch.stage ≠ none)
    (other : s.current.branch.stage ≠ some .number) :
    s.finish.answer = .error ⟨.unexpectedEnd, s.position⟩ := by
  rw [stage_branch] at incomplete other
  rcases Option.ne_none_iff_exists'.1 incomplete with ⟨stage, waits⟩
  have notNumber : stage ≠ .number := by
    rintro rfl
    exact other waits
  exact finish_answer_eq_error_iff.2 ⟨Tree.finish_of_stage waits notNumber, rfl⟩

/-- The end of the input and white space agree on every session, as far as the end of a document goes. -/
theorem ends_alike (space : s.options.isSpace b = true) : EndsAlike s b where
  ok_iff := by
    rw [feed_space_complete_iff space]
    exact exists_congr fun v => finish_answer_eq_ok_iff s
  value _ := feed_space_of_answer space
  complete_iff := (feed_space_complete_iff space).trans exists_finish_iff
  broken := invalidNumber_of_unread space
  rest := unexpectedEnd_of_stage

/-- After `-0` the end of the input gives a negative zero, as a line feed does, and `[1` is cut short. -/
theorem ends_alike_negative_zero :
    (∃ s, (start {}).feedAll [Byte.minus, Byte.digitZero] = .ok s ∧ s.options.isSpace Byte.lineFeed = true ∧
      s.finish.answer = .ok (.number (.zero true)) ∧ (s.feed Byte.lineFeed).answer = .ok .complete ∧
      (s.feed Byte.lineFeed).session.tree = some (.settled (.document (.number (.zero true))))) ∧
    ∃ s, (start {}).feedAll [Byte.openBracket, 0x31] = .ok s ∧
      s.finish.answer = .error ⟨.unexpectedEnd, ⟨2, 1, 3⟩⟩ := by
  have number_run : (start {}).feedAll [Byte.minus, Byte.digitZero] =
      .ok ⟨{}, some (.live [] (.number #[Byte.minus, Byte.digitZero])), ⟨2, 1, 3⟩⟩ := by
    rfl
  have array_run : (start {}).feedAll [Byte.openBracket, 0x31] =
      .ok ⟨{}, some (.live [.array #[]] (.number #[0x31])), ⟨2, 1, 3⟩⟩ := by
    rfl
  refine ⟨⟨_, number_run, rfl, ?_⟩, _, array_run, ?_⟩
  · have ended : (Session.mk {} (some (.live [] (.number #[Byte.minus, Byte.digitZero])))
        ⟨2, 1, 3⟩).finish.answer = .ok (.number (.zero true)) := by
      decide +kernel
    exact ⟨ended, (ends_alike rfl).ok_iff.1 ⟨_, ended⟩, ((ends_alike rfl).value _ ended).1⟩
  · exact (ends_alike (b := Byte.space) rfl).rest nofun nofun

end Session

end JsonStream
