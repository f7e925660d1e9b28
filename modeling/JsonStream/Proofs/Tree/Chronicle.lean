import JsonStream.Branch.Chronicle
import JsonStream.Proofs.Branch.Report
import JsonStream.Session.Run
import Mathlib.Data.List.Induction

/-!
# The log mirrors the tree

The events that a session has logged are a function of its tree alone: those of the chronicle, whatever the
order in which the containers, names and numbers of the tree came to be. A chronicle only grows, and what
one byte adds to it is what the byte logs.

- `Tree.chronicle_of_takes` — what one byte adds
- `Tree.chronicle_branch` — the chronicle read off from the outside in is the same
- `Session.Mirrors` — what the log of a session is, and how it goes on
- `Session.mirrors_of_feedAll` — it is that after any bytes
-/

namespace JsonStream

variable {o : Options} {outer : List Frame} {b : UInt8} {t u : Tree} {events : List Event}
  {name : Option Bytes} {depth : Nat}

/-! ## Rows of children -/

namespace Value

/-- The events of two rows, one after the other. -/
theorem chronicleItems_append (vs ws : List Value) :
    chronicleItems depth (vs ++ ws) = chronicleItems depth vs ++ chronicleItems depth ws := by
  induction vs with
  | nil =>
      rfl
  | cons v rest ih =>
      simp only [List.cons_append, chronicleItems, ih, List.append_assoc]

theorem chronicleMembers_append (vs ws : List (Bytes × Value)) :
    chronicleMembers depth (vs ++ ws) = chronicleMembers depth vs ++ chronicleMembers depth ws := by
  induction vs with
  | nil =>
      rfl
  | cons first rest ih =>
      rcases first with ⟨called, v⟩
      simp only [List.cons_append, chronicleMembers, ih, List.append_assoc]

end Value

/-- One more element adds its own events. -/
theorem Frame.chronicle_array_push (items : Array Value) (v : Value) :
    (Frame.array (items.push v)).chronicle depth =
      (Frame.array items).chronicle depth ++ v.chronicle (depth + 1) := by
  simp [Frame.chronicle, Value.chronicleItems_append, Value.chronicleItems]

/-- A member is its name, which the frame of the object has already, and its value. -/
theorem chronicleOpenObject_push (members : Array (Bytes × Value)) (called : Bytes) (v : Value) :
    chronicleOpenObject depth (members.push (called, v)) =
      (Frame.object members called).chronicle depth ++ v.chronicle (depth + 1) := by
  simp [chronicleOpenObject, Frame.chronicle, Value.chronicleMembers_append, Value.chronicleMembers]

/-! ## What a byte adds -/

namespace Tree

/-- A value that ends adds its own events to those of the containers around it. -/
theorem chronicle_of (outer : List Frame) (v : Value) :
    (settled (.of outer v)).chronicle = Frame.chronicles outer ++ v.chronicle outer.length := by
  cases outer with
  | nil =>
      rfl
  | cons f outer =>
      cases f with
      | array items =>
          simp only [Settled.of, chronicle, Frame.chronicle_array_push, Frame.chronicles, List.length_cons,
            List.append_assoc]
      | object members called =>
          simp only [Settled.of, chronicle, chronicleOpenObject_push, Frame.chronicles, List.length_cons,
            List.append_assoc]

/-- The first byte of a value adds its events to those of the frames. -/
theorem chronicle_of_begins (begins : Begins o outer b t events) :
    t.chronicle = Frame.chronicles outer ++ events := by
  cases begins with
  | container c room =>
      cases c with
      | array =>
          rfl
      | object =>
          rfl
  | _ =>
      rfl

/-- A byte after a value adds its events. -/
theorem chronicle_of_settled {s : Settled} (takes : s.Takes o b t events) :
    t.chronicle = (settled s).chronicle ++ events := by
  cases takes with
  | space space =>
      exact (List.append_nil _).symm
  | nextElement =>
      exact (List.append_nil _).symm
  | closeArray =>
      rw [chronicle_of]
      simp [chronicle, Frame.chronicle, Value.chronicle]
  | nextMember =>
      exact (List.append_nil _).symm
  | closeObject =>
      rw [chronicle_of]
      simp [chronicle, chronicleOpenObject, Value.chronicle]

/-- A byte adds to the chronicle of a tree the events that it brings about, and takes nothing away. -/
theorem chronicle_of_takes (takes : Takes o t b u events) : u.chronicle = t.chronicle ++ events := by
  -- Most bytes add nothing, and those that end a value add the last events of that value.
  cases takes with
  | settled rest =>
      exact chronicle_of_settled rest
  | blankBegins begins =>
      have added := chronicle_of_begins begins
      simpa [chronicle, Focus.chronicle] using added
  | @keywordEnd outer word seen b next last =>
      rw [chronicle_of]
      cases word <;> exact (List.append_nil _).symm
  | numberEnd ends value rest =>
      rw [chronicle_of_settled rest, chronicle_of]
      rcases numberOf_eq_ok_iff.1 value with ⟨x, -, rfl⟩
      rfl
  | @stringEnd outer role text =>
      cases role with
      | value =>
          rw [endString, chronicle_of]
          simp [chronicle, Focus.chronicle, Value.chronicle]
      | name members =>
          simp [endString, chronicle, Focus.chronicle, chronicleOpenObject, Frame.chronicle]
  | @stringEscape outer role text =>
      cases role <;> exact (List.append_nil _).symm
  | @stringPlain outer role text =>
      cases role <;> exact (List.append_nil _).symm
  | @escape outer role text =>
      cases role <;> exact (List.append_nil _).symm
  | elementClose =>
      rw [chronicle_of]
      simp [chronicle, Focus.chronicle, Frame.chronicle, Value.chronicle]
  | elementBegins begins =>
      exact chronicle_of_begins begins
  | nameClose =>
      rw [chronicle_of]
      simp [chronicle, Focus.chronicle, chronicleOpenObject, Value.chronicle]
  | colon =>
      simp [chronicle, Focus.chronicle, Frame.chronicles]
  | _ =>
      exact (List.append_nil _).symm

end Tree

/-! ## From the outside in -/

mutual

/-- The events of a complete value, read off its branch. Induction on the value, with its rows. -/
theorem Value.chronicle_branch (name : Option Bytes) (depth : Nat) : (v : Value) →
    (v.branch name).chronicle depth = Event.naming name ++ v.chronicle depth
  | .null => rfl
  | .bool _ => rfl
  | .number _ => rfl
  | .string _ => rfl
  | .array items => by
      rw [Value.branch, Branch.chronicle_closed, Value.chronicleItems_branch, Value.chronicle,
        Value.branchItems_eq_map, List.length_map, List.append_assoc]
  | .object members => by
      rw [Value.branch, Branch.chronicle_closed, Value.chronicleMembers_branch, Value.chronicle,
        Value.branchMembers_eq_map, List.length_map, List.append_assoc]

theorem Value.chronicleItems_branch (depth : Nat) : (items : List Value) →
    Branch.chronicleAll depth (branchItems items) = chronicleItems depth items
  | [] => rfl
  | v :: rest => by
      rw [branchItems, Branch.chronicleAll, v.chronicle_branch, Value.chronicleItems_branch, chronicleItems]
      rfl

theorem Value.chronicleMembers_branch (depth : Nat) : (members : List (Bytes × Value)) →
    Branch.chronicleAll depth (branchMembers members) = chronicleMembers depth members
  | [] => rfl
  | (called, v) :: rest => by
      rw [branchMembers, Branch.chronicleAll, v.chronicle_branch, Value.chronicleMembers_branch,
        chronicleMembers]
      rfl

end

/-- The events of what is inside the innermost frame, read off its branch. -/
theorem Focus.chronicle_branch (focus : Focus) :
    (focus.branch name).chronicle depth = Event.naming name ++ focus.chronicle depth := by
  have openObject : ∀ (members : Array (Bytes × Value)) (stage : Stage) (child : Branch),
      (Branch.object name members stage (some child)).chronicle depth =
        Event.naming name ++ chronicleOpenObject depth members ++ child.chronicle (depth + 1) := by
    intro members stage child
    rw [Branch.object, Branch.chronicle_within, Value.chronicleMembers_branch, chronicleOpenObject]
  cases focus with
  | string role text =>
      cases role with
      | value =>
          rfl
      | name members =>
          exact (openObject members _ _).trans (List.append_nil _)
  | escape role text =>
      cases role with
      | value =>
          rfl
      | name members =>
          exact (openObject members _ _).trans (List.append_nil _)
  | element items =>
      exact (Branch.chronicle_between _).trans (by rw [Value.chronicleItems_branch]; rfl)
  | name members =>
      exact (Branch.chronicle_between _).trans (by rw [Value.chronicleMembers_branch]; rfl)
  | colon members called =>
      refine (openObject members _ _).trans ?_
      rw [List.append_assoc]
      rfl
  | _ =>
      rfl

/-- The containers around a value come before its own events, which begin with its name unless the name is
told by the frame. -/
theorem Frame.chronicle_plug {n : Branch}
    (inside : n.chronicle outer.length = Event.naming (nameInside outer) ++ events) :
    (plug outer n).chronicle 0 = chronicles outer ++ events := by
  induction outer generalizing n events with
  | nil =>
      exact inside
  | cons f outer ih =>
      have around : (f.around (nameInside outer) n).chronicle outer.length =
          Event.naming (nameInside outer) ++ (f.chronicle outer.length ++ events) := by
        cases f with
        | array items =>
            refine (Branch.chronicle_within .element n).trans ?_
            rw [← List.length_cons, inside, Value.chronicleItems_branch, List.append_assoc]
            rfl
        | object members called =>
            refine (Branch.chronicle_within .member n).trans ?_
            rw [← List.length_cons, inside, Value.chronicleMembers_branch]
            simp [Frame.chronicle, Event.naming, nameInside]
      rw [plug, ih around, chronicles, List.append_assoc]

/-- The events of a tree are the same from the outside in. -/
theorem Tree.chronicle_branch (t : Tree) : t.branch.chronicle 0 = t.chronicle := by
  cases t with
  | settled place =>
      cases place with
      | document v =>
          exact v.chronicle_branch none 0
      | element outer items =>
          refine Frame.chronicle_plug ((Branch.chronicle_between _).trans ?_)
          rw [Value.chronicleItems_branch]
          rfl
      | member outer members =>
          refine Frame.chronicle_plug ((Branch.chronicle_between _).trans ?_)
          rw [Value.chronicleMembers_branch]
          rfl
  | live outer focus =>
      exact Frame.chronicle_plug focus.chronicle_branch

/-! ## Sessions -/

/-- What is logged while a tree is fed by itself is what its chronicle grows by. -/
theorem Tree.chronicle_of_feedLooseAll {first last : Option Tree} {more : Bytes} {log : List Record}
    (run : feedLooseAll first more = some (last, log)) :
    ∃ events : List Event, log = events.map .event ∧
      (last.getD .empty).chronicle = (first.getD .empty).chronicle ++ events := by
  induction more generalizing first log with
  | nil =>
      cases run
      exact ⟨[], rfl, (List.append_nil _).symm⟩
  | cons b rest ih =>
      rw [feedLooseAll] at run
      cases fed : (first.getD .empty).feed {} b with
      | error fault =>
          simp [feedLoose, fed] at run
      | ok result =>
          rcases result with ⟨t, events⟩
          simp only [feedLoose, fed, Option.bind_some, Option.map_eq_some_iff, Prod.exists, Prod.mk.injEq]
            at run
          rcases run with ⟨_, others, run, rfl, rfl⟩
          rcases ih run with ⟨more, rfl, grown⟩
          refine ⟨events ++ more, (List.map_append ..).symm, ?_⟩
          rw [grown, Option.getD_some, chronicle_of_takes (takes_of_feed fed), List.append_assoc]

namespace Session

variable {bytes : Bytes} {s r : Session}

/-- A session that has been fed some bytes from its start: what it has logged, and what it logs next. -/
structure Mirrors (o : Options) (bytes : Bytes) (s : Session) : Prop where
  trace : ((start o).records bytes).filter (fun record => record.level = .trace) =
    (s.current.branch.chronicle 0).map .event
  pending : s.isComplete = false → (start o).records bytes = (s.current.branch.chronicle 0).map .event
  -- Once the value has ended, one record more is logged, and it counts the bytes up to the one by which
  -- the value ended.
  complete : s.isComplete = true →
    ∃ before b rest r, bytes = before ++ b :: rest ∧ (start o).feedAll before = .ok r ∧
      r.isComplete = false ∧ (r.feed b).session.isComplete = true ∧
      (start o).records bytes =
        (s.current.branch.chronicle 0).map .event ++ [.completed (before.length + 1)]
  accepted : ∀ b status, (s.feed b).answer = .ok status →
    ∃ events : List Event, (s.feed b).log = events.map .event ++
      if s.isComplete = false ∧ (s.feed b).session.isComplete = true then [.completed (bytes.length + 1)]
      else []
  -- Its trace is all that the rules report on its way, also if it is refused in the end.
  reported : ∀ b, (s.current.branch.reportFeed s.options b).outcome = s.current.branch.feed s.options b ∧
    (s.feed b).log.filter (fun record => record.level = .trace) =
      (s.current.branch.reportFeed s.options b).entries.map .event
  refused : ∀ b failure, (s.feed b).answer = .error failure →
    (s.feed b).log = [.failed failure] ∧ (s.current.branch.reportFeed s.options b).entries = []
  -- The end of the input logs nothing, also if it ends a number.
  finished : ∀ v, s.finish.answer = .ok v → s.finish.log = []
  cutShort : ∀ failure, s.finish.answer = .error failure → s.finish.log = [.failed failure]
  -- Its tree, fed by itself, logs what is added to the chronicle, and in the end only what is refused.
  loose : ∀ more last log, Tree.feedLooseAll s.tree more = some (last, log) →
    ∃ events : List Event, log = events.map .event ∧
      (last.getD .empty).branch.chronicle 0 = s.current.branch.chronicle 0 ++ events ∧
      ∀ b, (Tree.feedLoose last b).tree = none → ∃ fault, (Tree.feedLoose last b).log = [.refused b fault]

/-- The whole log of a session: the chronicle of its tree, and after it the end of the value. -/
theorem records_of_feedAll (run : (start o).feedAll bytes = .ok s) :
    (s.isComplete = false ∧ (start o).records bytes = s.current.chronicle.map .event) ∨
      (s.isComplete = true ∧ ∃ before b rest r, bytes = before ++ b :: rest ∧
        (start o).feedAll before = .ok r ∧ r.isComplete = false ∧ (r.feed b).session.isComplete = true ∧
        (start o).records bytes = s.current.chronicle.map .event ++ [.completed (before.length + 1)]) := by
  -- The last byte is taken off, for the state of the session is known before it.
  induction bytes using List.reverseRecOn generalizing s with
  | nil =>
      cases run
      exact .inl ⟨rfl, rfl⟩
  | append_singleton before b ih =>
      rcases feedAll_concat_eq_ok_iff.1 run with ⟨r, status, earlier, answer, rfl⟩
      rcases feed_answer_eq_ok_iff.1 answer with ⟨t, events, taken, rfl⟩
      have grown : t.chronicle = r.current.chronicle ++ events :=
        Tree.chronicle_of_takes (Tree.takes_of_feed taken)
      have longer : (start o).records (before ++ [b]) =
          (start o).records before ++ (events.map .event ++ r.completion t) := by
        rw [records_append earlier, records, answer, feed_of_ok taken]
        exact congrArg _ (List.append_nil _)
      rw [longer, feed_of_ok taken]
      rcases ih earlier with ⟨incomplete, log⟩ | ⟨complete, first, c, rest, q, rfl, early, still, ended, log⟩
      · cases done : t.isComplete with
        | false =>
            refine .inl ⟨done, ?_⟩
            simp [completion, done, log, current, grown]
        | true =>
            refine .inr ⟨done, before, b, [], r, rfl, earlier, incomplete, ?_, ?_⟩
            · rw [feed_of_ok taken]
              exact done
            · simp [completion, done, incomplete, log, current, grown, position_of_feedAll earlier,
                Position.after]
      · -- The value had ended before, so the last byte is white space after it.
        have known : r.current.isComplete = true := by
          rwa [← isComplete_eq_current]
        rcases (Tree.feed_complete_eq_ok_iff known).1 taken with ⟨-, rfl, rfl⟩
        refine .inr ⟨known, first, c, rest ++ [b], q, by simp, early, still, ended, ?_⟩
        simp [completion, complete, log, current]

/-- A byte that is accepted logs its events, and the end of the value if it ends with it. -/
theorem log_of_feed_ok (run : (start o).feedAll bytes = .ok s) {status : Status}
    (accepted : (s.feed b).answer = .ok status) :
    ∃ events : List Event, (s.feed b).log = events.map .event ++
      if s.isComplete = false ∧ (s.feed b).session.isComplete = true then [.completed (bytes.length + 1)]
      else [] := by
  rcases feed_answer_eq_ok_iff.1 accepted with ⟨t, events, taken, -⟩
  refine ⟨events, ?_⟩
  have now : (s.feed b).session.isComplete = t.isComplete := by
    rw [feed_of_ok taken]
    rfl
  rw [now, feed_of_ok taken, completion, position_of_feedAll run, Position.after]
  cases t.isComplete <;> cases s.isComplete <;> rfl

/-- The trace of a byte is what the rules report of it, and so a byte that is refused has reported nothing. -/
theorem trace_of_feed (s : Session) (b : UInt8) :
    (s.feed b).log.filter (fun record => record.level = .trace) =
      (s.current.branch.reportFeed s.options b).entries.map .event := by
  rw [Tree.entries_reportFeed]
  cases fed : s.current.feed s.options b with
  | error fault =>
      rw [feed_of_error fed]
      rfl
  | ok result =>
      rcases result with ⟨t, events⟩
      rw [feed_of_ok fed, completion, told]
      split <;> simp [List.filter_map, Function.comp_def, Record.level]

/-- The log of a session mirrors its tree, after any bytes. -/
theorem mirrors_of_feedAll (run : (start o).feedAll bytes = .ok s) : Mirrors o bytes s := by
  have whole := records_of_feedAll run
  rw [← s.current.chronicle_branch] at whole
  refine ⟨?_, ?_, ?_, ?_, fun b => ⟨Branch.outcome_reportFeed _, s.trace_of_feed b⟩, ?_, ?_, ?_, ?_⟩
  · rcases whole with ⟨-, log⟩ | ⟨-, before, b, rest, r, -, -, -, -, log⟩
    · simp [log, List.filter_map, Function.comp_def, Record.level]
    · simp [log, List.filter_map, Function.comp_def, Record.level]
  · intro incomplete
    rcases whole with ⟨-, log⟩ | ⟨complete, -⟩
    · exact log
    · rw [incomplete] at complete
      cases complete
  · intro complete
    rcases whole with ⟨incomplete, -⟩ | ⟨-, ended⟩
    · rw [complete] at incomplete
      cases incomplete
    · exact ended
  · intro b status accepted
    exact log_of_feed_ok run accepted
  · intro b failure refused
    have log := log_of_feed_error refused
    have none := s.trace_of_feed b
    rw [log] at none
    exact ⟨log, List.map_eq_nil_iff.1 none.symm⟩
  · intro v ended
    rw [log_of_finish, ended]
  · intro failure refused
    rw [log_of_finish, refused]
  · intro more last log loose
    rcases Tree.chronicle_of_feedLooseAll loose with ⟨events, rfl, grown⟩
    refine ⟨events, rfl, ?_, ?_⟩
    · rw [Tree.chronicle_branch, Tree.chronicle_branch, grown]
      rfl
    · intro b refused
      cases fed : (last.getD .empty).feed {} b with
      | error fault =>
          exact ⟨fault, by simp only [Tree.feedLoose, fed]⟩
      | ok result =>
          simp [Tree.feedLoose, fed] at refused

/-- The trace of an object around an array around a string. -/
theorem mirrors_nested_string :
    ∃ s, (start {}).feedAll [0x7B, 0x22, 0x61, 0x22, 0x3A, 0x5B, 0x22, 0x62, 0x22, 0x5D, 0x7D] = .ok s ∧
      s.isComplete = true ∧
      ((start {}).records [0x7B, 0x22, 0x61, 0x22, 0x3A, 0x5B, 0x22, 0x62, 0x22, 0x5D, 0x7D]).filter
          (fun record => record.level = .trace) =
        [.event (.opened .object 0), .event (.string 1), .event (.member [0x61]), .event (.opened .array 1),
          .event (.string 1), .event (.closed .array 1), .event (.closed .object 1)] := by
  have run : (start {}).feedAll [0x7B, 0x22, 0x61, 0x22, 0x3A, 0x5B, 0x22, 0x62, 0x22, 0x5D, 0x7D] =
      .ok ⟨{}, some (.settled (.document (.object [([0x61], .array [.string [0x62]])]))), ⟨11, 1, 12⟩⟩ := by
    rfl
  exact ⟨_, run, rfl, (mirrors_of_feedAll run).trace⟩

end Session

end JsonStream
