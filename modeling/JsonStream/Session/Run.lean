import JsonStream.Fault.Position
import JsonStream.Tree.Run

/-!
# Runs of a session

What a session answers is said of its tree: to one byte, to the end of the input, and to a run of bytes
that ends with a refusal. More kinds of run are built on that. `Session.records` keeps what is logged on the
way, `Session.takeAll` takes every value away as soon as it has ended, and `Tree.feedLooseAll` needs no
session.
-/

namespace JsonStream

namespace Session

variable {o : Options} {s u : Session} {t : Tree} {b : UInt8} {bytes : Bytes} {events : List Event}
  {fault : Fault} {failure : Failure} {status : Status}

/-! ## One byte -/

/-- What is logged about the end of a value, by the byte before which the session was `s` and after which
its tree is `t`. -/
def completion (s : Session) (t : Tree) : List Record :=
  if t.isComplete && !s.isComplete then [.completed (s.position.offset + 1)] else []

/-- All that a session does with a byte its tree takes. -/
theorem feed_of_ok (taken : s.current.feed s.options b = .ok (t, events)) :
    s.feed b =
      ⟨⟨s.options, some t, s.position.advance b⟩, .ok t.status, events.map .event ++ s.completion t⟩ := by
  rcases s with ⟨options, tree, position⟩
  have taken : (tree.getD .empty).feed options b = .ok (t, events) := taken
  rw [completion, isComplete_eq_current]
  simp only [feed, taken]
  rfl

/-- All that a session does with a byte its tree refuses: it starts over. -/
theorem feed_of_error (refused : s.current.feed s.options b = .error fault) :
    s.feed b = fail s.options ⟨fault, s.position⟩ := by
  rcases s with ⟨options, tree, position⟩
  have refused : (tree.getD .empty).feed options b = .error fault := refused
  simp only [feed, refused]

/-- A session accepts exactly the bytes that its tree takes. -/
theorem feed_answer_eq_ok_iff :
    (s.feed b).answer = .ok status ↔
      ∃ t events, s.current.feed s.options b = .ok (t, events) ∧ status = t.status := by
  cases fed : s.current.feed s.options b with
  | error fault =>
      simp [feed_of_error fed, fail]
  | ok after =>
      rcases after with ⟨t, events⟩
      simp [feed_of_ok fed, eq_comm]

/-- A session fails for the reason its tree gives, at the position before the byte. -/
theorem feed_answer_eq_error_iff :
    (s.feed b).answer = .error failure ↔
      s.current.feed s.options b = .error failure.fault ∧ failure.position = s.position := by
  rcases failure with ⟨fault, position⟩
  cases fed : s.current.feed s.options b with
  | error fault =>
      simp [feed_of_error fed, fail, eq_comm]
  | ok after =>
      rcases after with ⟨t, events⟩
      simp [feed_of_ok fed]

/-- The status of a byte is what the session shows after it. -/
theorem status_of_feed (accepted : (s.feed b).answer = .ok status) :
    status = (s.feed b).session.current.status := by
  rcases feed_answer_eq_ok_iff.1 accepted with ⟨t, events, taken, rfl⟩
  rw [feed_of_ok taken]
  rfl

/-- A byte that is refused logs its failure and nothing else. -/
theorem log_of_feed_error (refused : (s.feed b).answer = .error failure) :
    (s.feed b).log = [.failed failure] := by
  rcases failure with ⟨fault, place⟩
  rcases feed_answer_eq_error_iff.1 refused with ⟨cause, rfl⟩
  rw [feed_of_error cause]
  rfl

/-- What a byte comes to, wherever it stands: the next tree with its status, or the cause for which the byte
is refused. -/
def outcome (s : Session) (b : UInt8) : Except Fault (Option Tree × Status) :=
  match (s.feed b).answer with
  | .ok status => .ok ((s.feed b).session.tree, status)
  | .error failure => .error failure.fault

theorem outcome_eq (s : Session) (b : UInt8) :
    s.outcome b = (s.current.feed s.options b).map fun result => (some result.1, result.1.status) := by
  cases fed : s.current.feed s.options b with
  | error fault =>
      rw [outcome, feed_of_error fed]
      rfl
  | ok result =>
      rw [outcome, feed_of_ok fed]
      rfl

/-! ## The end of the input -/

theorem log_of_finish (s : Session) :
    s.finish.log = match s.finish.answer with
      | .ok _ => []
      | .error failure => [.failed failure] := by
  rcases s with ⟨options, tree, position⟩
  cases tree with
  | none =>
      rfl
  | some t =>
      simp only [finish]
      cases t.finish with
      | error fault =>
          rfl
      | ok v =>
          rfl

/-- The end of the input fails for the reason the tree gives, at the present position. -/
theorem finish_answer_eq_error_iff :
    s.finish.answer = .error failure ↔
      s.current.finish = .error failure.fault ∧ failure.position = s.position := by
  rcases s with ⟨options, tree, position⟩
  rcases failure with ⟨fault, place⟩
  cases tree with
  | none =>
      simp [finish, fail, current, Tree.empty, Tree.finish, eq_comm]
  | some t =>
      simp only [finish, current, Option.getD_some]
      cases ended : t.finish with
      | error cause =>
          simp [fail, eq_comm]
      | ok v =>
          simp

/-! ## Runs that end with a refusal -/

/-- The position depends on the bytes alone. -/
theorem position_of_feedAll (run : (start o).feedAll bytes = .ok s) : s.position = .after bytes := by
  rcases feedAll_eq_ok_iff.1 run with ⟨t, -, rfl⟩
  exact Position.foldl_advance [] bytes

/-- A run is accepted exactly if all but its last byte are, and then that one. -/
theorem feedAll_concat_eq_ok_iff :
    s.feedAll (bytes ++ [b]) = .ok u ↔
      ∃ r status, s.feedAll bytes = .ok r ∧ (r.feed b).answer = .ok status ∧ u = (r.feed b).session := by
  rw [feedAll_append]
  cases run : s.feedAll bytes with
  | error failure =>
      simp [Except.bind]
  | ok r =>
      cases answer : (r.feed b).answer with
      | error failure =>
          simp [Except.bind, feedAll, answer]
      | ok status =>
          simp [Except.bind, feedAll, answer, eq_comm]

/-- A run that fails does so at one byte, and every byte before is accepted. -/
theorem feedAll_eq_error_iff :
    s.feedAll bytes = .error failure ↔
      ∃ before b rest r, bytes = before ++ b :: rest ∧ s.feedAll before = .ok r ∧
        (r.feed b).answer = .error failure := by
  constructor
  · intro refused
    induction bytes generalizing s with
    | nil =>
        cases refused
    | cons c rest ih =>
        rw [feedAll] at refused
        cases answer : (s.feed c).answer with
        | error cause =>
            simp only [answer] at refused
            cases refused
            exact ⟨[], c, rest, s, rfl, rfl, answer⟩
        | ok status =>
            simp only [answer] at refused
            rcases ih refused with ⟨before, b, more, r, rfl, run, last⟩
            refine ⟨c :: before, b, more, r, rfl, ?_, last⟩
            simp only [feedAll, answer, run]
  · rintro ⟨before, b, rest, r, rfl, run, last⟩
    rw [feedAll_append, run]
    simp only [Except.bind, feedAll, last]

/-- A document fails at one of its bytes or at its end. -/
theorem decode_eq_error_iff :
    s.decode bytes = .error failure ↔
      s.feedAll bytes = .error failure ∨
        ∃ r, s.feedAll bytes = .ok r ∧ r.finish.answer = .error failure := by
  unfold decode
  cases run : s.feedAll bytes with
  | error cause =>
      simp [bind, Except.bind]
  | ok r =>
      simp [bind, Except.bind]

/-! ## Runs that keep more -/

/-- Everything that is logged while bytes are fed, up to the first that is refused and with its refusal. -/
def records (s : Session) : Bytes → List Record
  | [] => []
  | b :: rest =>
    let reply := s.feed b
    match reply.answer with
    | .error _ => reply.log
    | .ok _ => reply.log ++ reply.session.records rest

/-- Feeds bytes up to the first that is refused, and takes every value away as soon as it has ended. -/
def takeAll (s : Session) : Bytes → Except Failure (List Tree × Session)
  | [] => .ok ([], s)
  | b :: rest =>
    let reply := s.feed b
    match reply.answer with
    | .error failure => .error failure
    | .ok .pending => reply.session.takeAll rest
    | .ok .complete =>
      let (tree, next) := reply.session.take
      (next.takeAll rest).map fun (trees, last) => (tree.toList ++ trees, last)

/-- The records of a run that goes on are those so far and those of what follows. -/
theorem records_append (run : s.feedAll bytes = .ok u) (more : Bytes) :
    s.records (bytes ++ more) = s.records bytes ++ u.records more := by
  induction bytes generalizing s with
  | nil =>
      cases run
      rfl
  | cons b rest ih =>
      rw [feedAll] at run
      cases answer : (s.feed b).answer with
      | error failure =>
          simp only [answer] at run
          cases run
      | ok status =>
          simp only [answer] at run
          simp only [List.cons_append, records, answer, ih run, List.append_assoc]

end Session

/-- Feeds bytes to a tree by itself, and keeps the last tree with all that is logged; nothing, if a byte is
refused. -/
def Tree.feedLooseAll (t : Option Tree) : Bytes → Option (Option Tree × List Record)
  | [] => some (t, [])
  | b :: rest =>
    let fed := feedLoose t b
    fed.tree.bind fun after => (feedLooseAll (some after) rest).map fun (last, log) => (last, fed.log ++ log)

end JsonStream
