import JsonStream.Session

/-!
# Runs of a tree

A tree fed with many bytes, without the events they bring about. In `Tree.feedEach` every byte comes with
options of its own, as when a tree is handed from one decoder to another; `Tree.feedAll` keeps to one
choice of options. A session is such a run together with a position.
-/

namespace JsonStream

namespace Tree

/-- Feeds bytes, each under its own options, up to the first that is refused. -/
def feedEach : Tree → List (Options × UInt8) → Except Fault Tree
  | t, [] => .ok t
  | t, (o, b) :: rest => (t.feed o b).bind fun after => after.1.feedEach rest

def feedAll (o : Options) (t : Tree) (bytes : Bytes) : Except Fault Tree :=
  t.feedEach (bytes.map fun b => (o, b))

variable {o : Options} {t u v : Tree} {b : UInt8} {events : List Event} {s rest first second : Bytes}

@[simp]
theorem feedAll_nil : feedAll o t [] = .ok t :=
  rfl

theorem feedAll_cons (o : Options) (t : Tree) (b : UInt8) (rest : Bytes) :
    feedAll o t (b :: rest) = (t.feed o b).bind fun after => feedAll o after.1 rest :=
  rfl

theorem feedAll_cons_of_feed (taken : t.feed o b = .ok (u, events)) (rest : Bytes) :
    feedAll o t (b :: rest) = feedAll o u rest := by
  rw [feedAll_cons, taken]
  rfl

theorem feedAll_singleton (taken : t.feed o b = .ok (u, events)) : feedAll o t [b] = .ok u := by
  rw [feedAll_cons_of_feed taken]
  rfl

/-- A run may be broken off between any two bytes. -/
theorem feedAll_append (o : Options) (t : Tree) (first second : Bytes) :
    feedAll o t (first ++ second) = (feedAll o t first).bind fun u => feedAll o u second := by
  induction first generalizing t with
  | nil =>
      rfl
  | cons b rest ih =>
      rw [List.cons_append, feedAll_cons, feedAll_cons]
      cases t.feed o b with
      | error fault =>
          rfl
      | ok after =>
          exact ih after.1

/-- Two runs, one after the other. -/
theorem feedAll_trans (left : feedAll o t first = .ok u) (right : feedAll o u second = .ok v) :
    feedAll o t (first ++ second) = .ok v := by
  rw [feedAll_append, left]
  exact right

theorem feedAll_cons_eq_ok_iff :
    feedAll o t (b :: rest) = .ok v ↔
      ∃ u events, t.feed o b = .ok (u, events) ∧ feedAll o u rest = .ok v := by
  rw [feedAll_cons]
  constructor
  · intro h
    cases taken : t.feed o b with
    | error fault =>
        rw [taken] at h
        cases h
    | ok after =>
        rw [taken] at h
        exact ⟨after.1, after.2, rfl, h⟩
  · rintro ⟨u, events, taken, h⟩
    rw [taken]
    exact h

theorem feedAll_append_eq_ok_iff :
    feedAll o t (first ++ second) = .ok v ↔ ∃ u, feedAll o t first = .ok u ∧ feedAll o u second = .ok v := by
  rw [feedAll_append]
  cases run : feedAll o t first with
  | error fault =>
      simp [Except.bind]
  | ok u =>
      simp [Except.bind]

/-- The last byte of a run is taken by the tree that the others lead to. -/
theorem feedAll_concat_eq_ok_iff :
    feedAll o t (s ++ [b]) = .ok v ↔ ∃ u events, feedAll o t s = .ok u ∧ u.feed o b = .ok (v, events) := by
  simp [feedAll_append_eq_ok_iff, feedAll_cons_eq_ok_iff]

/-- What one byte preserves, a run preserves. -/
theorem feedEach_induction {P : Tree → Prop}
    (step : ∀ {o t b u events}, P t → t.feed o b = .ok (u, events) → P u) {t u : Tree}
    {steps : List (Options × UInt8)} (start : P t) (run : t.feedEach steps = .ok u) : P u := by
  induction steps generalizing t with
  | nil =>
      cases run
      exact start
  | cons first rest ih =>
      rcases first with ⟨o, b⟩
      rw [feedEach] at run
      cases taken : t.feed o b with
      | error fault =>
          rw [taken] at run
          cases run
      | ok after =>
          rw [taken] at run
          exact ih (step start taken) run

end Tree

namespace Session

variable {o : Options} {s s' : Session} {bytes : Bytes} {v : Value}

/-- The tree a session goes on with: the empty one, if no byte has been fed. -/
def current (s : Session) : Tree :=
  s.tree.getD .empty

theorem isComplete_eq_current (s : Session) : s.isComplete = s.current.isComplete := by
  rcases s with ⟨options, tree, position⟩
  cases tree with
  | none =>
      rfl
  | some t =>
      rfl

/-- A session that is fed bytes is its tree fed the same bytes, with a position beside it. -/
theorem feedAll_eq_ok_iff :
    s.feedAll bytes = .ok s' ↔
      ∃ t, Tree.feedAll s.options s.current bytes = .ok t ∧
        s' = ⟨s.options, if bytes.isEmpty then s.tree else some t,
          bytes.foldl Position.advance s.position⟩ := by
  induction bytes generalizing s with
  | nil =>
      simp [feedAll, eq_comm]
  | cons b rest ih =>
      rcases s with ⟨options, tree, position⟩
      rw [feedAll, Tree.feedAll_cons]
      simp only [feed, current]
      cases taken : (tree.getD .empty).feed options b with
      | error fault =>
          simp [fail, Except.bind]
      | ok after =>
          rcases after with ⟨t, events⟩
          simp only [ih, current, Option.getD_some, Except.bind]
          constructor
          · rintro ⟨u, run, rfl⟩
            refine ⟨u, run, ?_⟩
            cases rest with
            | nil =>
                cases run
                rfl
            | cons c rest =>
                rfl
          · rintro ⟨u, run, rfl⟩
            refine ⟨u, run, ?_⟩
            cases rest with
            | nil =>
                cases run
                rfl
            | cons c rest =>
                rfl

/-- The tree after some bytes is that of the run from the empty tree. -/
theorem current_of_feedAll (run : (start o).feedAll bytes = .ok s) :
    Tree.feedAll o .empty bytes = .ok s.current ∧ s.options = o := by
  rcases feedAll_eq_ok_iff.1 run with ⟨t, treeRun, rfl⟩
  refine ⟨?_, rfl⟩
  cases bytes with
  | nil =>
      cases treeRun
      rfl
  | cons b rest =>
      exact treeRun

/-- Whatever bytes do to the empty tree they do to a new session. -/
theorem exists_feedAll {t : Tree} (run : Tree.feedAll o .empty bytes = .ok t) :
    ∃ s, (start o).feedAll bytes = .ok s ∧ s.current = t := by
  refine ⟨_, feedAll_eq_ok_iff.2 ⟨t, run, rfl⟩, ?_⟩
  cases bytes with
  | nil =>
      cases run
      rfl
  | cons b rest =>
      rfl

/-- The value a session hands out in the end is that of its tree. -/
theorem finish_answer_eq_ok_iff (s : Session) :
    s.finish.answer = .ok v ↔ s.current.finish = .ok v := by
  rcases s with ⟨options, tree, position⟩
  cases tree with
  | none =>
      simp [finish, fail, current, Tree.empty, Tree.finish]
  | some t =>
      simp only [finish, current, Option.getD_some]
      cases ended : t.finish with
      | error fault =>
          simp [fail]
      | ok w =>
          simp

/-- A document is decoded exactly if its run ends where the value does. -/
theorem decode_eq_ok_iff_run :
    (start o).decode bytes = .ok v ↔ ∃ t, Tree.feedAll o .empty bytes = .ok t ∧ t.finish = .ok v := by
  unfold decode
  constructor
  · intro h
    cases run : (start o).feedAll bytes with
    | error failure =>
        rw [run] at h
        cases h
    | ok s =>
        rw [run] at h
        exact ⟨s.current, (current_of_feedAll run).1, (finish_answer_eq_ok_iff s).1 h⟩
  · rintro ⟨t, run, ended⟩
    rcases exists_feedAll run with ⟨s, sessionRun, rfl⟩
    rw [sessionRun]
    exact (finish_answer_eq_ok_iff s).2 ended

end Session

end JsonStream
