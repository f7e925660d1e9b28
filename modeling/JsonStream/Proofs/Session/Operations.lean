import JsonStream.Branch.Decoder
import JsonStream.Proofs.Session.Finish

/-!
# No residue

Whatever has been done with a session, it is a new one that has been fed the bytes since it last began. That
also holds of a session that keeps its tree from the outside in and has to get rid of what a refused byte
leaves of it. A tree fed by itself goes through the same trees, and a tree that is taken away can go on by
itself as it would have gone on in the session.

- `Session.feedAll_recent` — any operations, for the session
- `Session.performAll_decoder` — the same operations from the outside in
- `Session.performLooseAll_tree` — the same operations on a tree by itself
- `Session.no_residue` — all of it, from the start
-/

namespace JsonStream

namespace Session

variable {o : Options} {s : Session} {before : Bytes} {b : UInt8}

/-! ## Beginning anew -/

/-- After a failure nothing is left but the options. -/
theorem session_of_feed_error {failure : Failure} (refused : (s.feed b).answer = .error failure) :
    (s.feed b).session = start s.options := by
  rcases failure with ⟨fault, place⟩
  rw [feed_of_error (feed_answer_eq_error_iff.1 refused).1]
  rfl

/-- No operation changes the options. -/
theorem options_perform (s : Session) (op : Operation) : (s.perform op).options = s.options := by
  cases op with
  | feed b =>
      cases fed : s.current.feed s.options b with
      | error fault =>
          rw [perform, feed_of_error fed]
          rfl
      | ok result =>
          rw [perform, feed_of_ok fed]
  | take =>
      rfl
  | reset =>
      rfl

/-- An operation either adds one byte to those fed since the beginning, or is a new beginning. -/
theorem feedAll_recentAfter (run : (start o).feedAll before = .ok s) (op : Operation) :
    (start o).feedAll (s.recentAfter before op) = .ok (s.perform op) := by
  obtain rfl : s.options = o := (current_of_feedAll run).2
  cases op with
  | feed b =>
      cases answer : (s.feed b).answer with
      | ok status =>
          simp only [recentAfter, answer]
          exact feedAll_concat_eq_ok_iff.2 ⟨s, status, run, answer, rfl⟩
      | error failure =>
          simp only [recentAfter, answer, perform, session_of_feed_error answer]
          rfl
  | take =>
      rfl
  | reset =>
      rfl

/-- After any operations the session is a new one that has been fed the bytes since it last began. -/
theorem feedAll_recent (run : (start o).feedAll before = .ok s) (ops : List Operation) :
    (start o).feedAll (s.recent before ops) = .ok (s.performAll ops) := by
  -- Each operation leads from one such session to another, fed other bytes.
  induction ops generalizing s before with
  | nil =>
      exact run
  | cons op ops ih =>
      exact ih (feedAll_recentAfter run op)

/-- The second brace of `{{` is refused, so only what comes after it counts. -/
example : (start {}).recent [] [.feed Byte.openBrace, .feed Byte.openBrace, .feed Byte.openBracket] =
    [Byte.openBracket] := by
  rfl

/-! ## From the outside in -/

/-- Where no tree is held, both sides go on with an empty one. -/
theorem root_getD (s : Session) : s.decoder.root.getD .fresh = s.current.branch := by
  rcases s with ⟨options, tree, position⟩
  cases tree with
  | none =>
      rfl
  | some t =>
      rfl

/-- A byte does the same to a session from the outside in, whatever it leaves where it is refused. -/
theorem decoder_feed (leaves : Branch → UInt8 → Branch) (s : Session) (b : UInt8) :
    s.decoder.feed leaves b = ((s.feed b).session.decoder, (s.feed b).answer) := by
  have options : s.decoder.options = s.options := rfl
  rw [Decoder.feed, root_getD, options, Tree.feed_branch]
  cases fed : s.current.feed s.options b with
  | error fault =>
      rw [feed_of_error fed]
      rfl
  | ok result =>
      rcases result with ⟨t, events⟩
      rw [feed_of_ok fed]
      rfl

/-- One operation, from the outside in, whatever is left of a tree that refuses a byte. -/
theorem perform_decoder (leaves : Branch → UInt8 → Branch) (s : Session) (op : Operation) :
    s.decoder.perform leaves op = (s.perform op).decoder := by
  cases op with
  | feed b =>
      rw [Decoder.perform, decoder_feed]
      rfl
  | take =>
      rfl
  | reset =>
      rfl

/-- Operations in turn, from the outside in, whatever is left of trees that refuse a byte. -/
theorem performAll_decoder (leaves : Branch → UInt8 → Branch) (s : Session) (ops : List Operation) :
    s.decoder.performAll leaves ops = (s.performAll ops).decoder := by
  induction ops generalizing s with
  | nil =>
      rfl
  | cons op ops ih =>
      rw [Decoder.performAll, List.foldl_cons, perform_decoder]
      exact ih (s.perform op)

theorem finish_decoder (s : Session) : s.decoder.finish = s.finish.answer.map (Value.branch none) := by
  rcases s with ⟨options, tree, position⟩
  cases tree with
  | none =>
      rfl
  | some t =>
      have root : (Session.mk options (some t) position).decoder.root = some t.branch := rfl
      simp only [Decoder.finish, root, Tree.finish_branch, finish]
      cases t.finish with
      | error fault =>
          rfl
      | ok v =>
          rfl

/-! ## Trees fed by themselves -/

structure LooseAgrees (s : Session) (b : UInt8) : Prop where
  tree : (Tree.feedLoose s.tree b).tree = (s.feed b).session.tree
  complete : (Tree.feedLoose s.tree b).complete = true ↔ (s.feed b).answer = .ok .complete
  refused : ((Tree.feedLoose s.tree b).tree = none ∧ (Tree.feedLoose s.tree b).complete = false) ↔
    ∃ failure, (s.feed b).answer = .error failure

/-- Under the default options a tree fed by itself does what it does in a session. -/
theorem looseAgrees (default : s.options = {}) (b : UInt8) : LooseAgrees s b := by
  -- Both feed the same tree under the same options, and differ in what they make of the result only.
  have tree_eq : s.tree.getD .empty = s.current := rfl
  cases fed : s.current.feed {} b with
  | error fault =>
      have session := feed_of_error (default ▸ fed)
      have loose : Tree.feedLoose s.tree b = ⟨none, false, [.refused b fault]⟩ := by
        rw [Tree.feedLoose, tree_eq, fed]
      constructor
      · rw [loose, session]
        rfl
      · simp [loose, session, fail]
      · simp [loose, session, fail]
  | ok result =>
      rcases result with ⟨t, events⟩
      have session := feed_of_ok (default ▸ fed)
      have loose : Tree.feedLoose s.tree b = ⟨some t, t.isComplete, events.map .event⟩ := by
        rw [Tree.feedLoose, tree_eq, fed]
      constructor
      · rw [loose, session]
      · rw [loose, session, Tree.status]
        cases t.isComplete <;> simp
      · simp [loose, session]

/-- The tree of a session, fed by itself, goes through the same operations to the same tree. -/
theorem performLooseAll_tree (default : s.options = {}) (ops : List Operation) :
    Tree.performLooseAll s.tree ops = (s.performAll ops).tree := by
  induction ops generalizing s with
  | nil =>
      rfl
  | cons op ops ih =>
      have first : Tree.performLoose s.tree op = (s.perform op).tree := by
        cases op with
        | feed b =>
            exact (looseAgrees default b).tree
        | take =>
            rfl
        | reset =>
            rfl
      rw [Tree.performLooseAll, List.foldl_cons, first]
      exact ih ((options_perform s op).trans default)

/-! ## From the start -/

/-- The session is a new one that has been fed some bytes: so are its options and its position, and its tree
with all that is remembered of it, and so is everything it will answer. -/
structure AsNew (o : Options) (recent : Bytes) (s : Session) : Prop where
  session : (start o).feedAll recent = .ok s
  options : s.options = o
  tree_eq_none_iff : s.tree = none ↔ recent = []
  root : Branch.fresh.feedEach (recent.map fun b => (o, b)) = .ok s.current.branch
  position : s.position = .after recent
  decode : ∀ more, (start o).decode (recent ++ more) = s.decode more

/-- A session from the outside in does the same, with any `leaves` of what is refused. -/
structure SameOutsideIn (leaves : Branch → UInt8 → Branch) (o : Options) (ops : List Operation)
    (s : Session) : Prop where
  decoder : (Decoder.start o).performAll leaves ops = s.decoder
  feed : ∀ b, s.decoder.feed leaves b = ((s.feed b).session.decoder, (s.feed b).answer)
  finish : s.decoder.finish = s.finish.answer.map (Value.branch none)

/-- A session that has been fed bytes is a new one that has been fed the same. -/
theorem asNew_of_feedAll (run : (start o).feedAll before = .ok s) : AsNew o before s := by
  refine ⟨run, (current_of_feedAll run).2, ?_, ?_, position_of_feedAll run, ?_⟩
  · rcases feedAll_eq_ok_iff.1 run with ⟨t, -, rfl⟩
    cases before with
    | nil =>
        exact iff_of_true rfl rfl
    | cons b rest =>
        exact iff_of_false nofun nofun
  · have treeRun : Tree.empty.feedEach (before.map fun b => (o, b)) = .ok s.current :=
      (current_of_feedAll run).1
    rw [Tree.feedEach_fresh, treeRun]
    rfl
  · intro more
    rw [Session.decode, feedAll_append, run]
    rfl

/-- A session keeps nothing of what came before it last began, whatever operations have led to it. Under the
default options a tree fed by itself goes the same way, also from where it was taken out of the session. -/
theorem no_residue :
    (∀ o ops, AsNew o ((start o).recent [] ops) ((start o).performAll ops) ∧
      ∀ leaves, SameOutsideIn leaves o ops ((start o).performAll ops)) ∧
    ∀ ops, Tree.performLooseAll none ops = ((start {}).performAll ops).tree ∧
      (∀ b, LooseAgrees ((start {}).performAll ops) b) ∧
      ∀ more, Tree.performLooseAll ((start {}).performAll ops).take.1 more =
        ((start {}).performAll (ops ++ more)).tree := by
  constructor
  · intro o ops
    refine ⟨asNew_of_feedAll (feedAll_recent rfl ops), fun leaves => ⟨?_, ?_, ?_⟩⟩
    · exact performAll_decoder leaves (start o) ops
    · exact decoder_feed leaves _
    · exact finish_decoder _
  · intro ops
    have run : (start {}).feedAll ((start {}).recent [] ops) = .ok ((start {}).performAll ops) :=
      feedAll_recent rfl ops
    have default : ((start {}).performAll ops).options = {} := (asNew_of_feedAll run).options
    refine ⟨performLooseAll_tree (s := start {}) rfl ops, looseAgrees default, fun more => ?_⟩
    rw [performAll_append]
    exact performLooseAll_tree default more

end Session

end JsonStream
