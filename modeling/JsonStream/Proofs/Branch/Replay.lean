import JsonStream.Proofs.Branch.Ending
import JsonStream.Proofs.Branch.Limits
import JsonStream.Proofs.Branch.Recursion
import JsonStream.Proofs.Branch.Skeleton

/-!
# A byte is handed back at most once

In a sound value only a number can be handed back to the container around it, and a container that has the byte
again is no number. So this happens at most once for a byte. The same goes for a document, which has the byte again
only if it is a number itself.

- `Handed.eq_alone_of_number` — what ends as a number makes no calls
- `replayedOnce_of_handed` — sound values
- `exists_performFeed` — documents
- `calls_end_and_replay_once` — all that is said of one byte
-/

namespace JsonStream.Branch

variable {o : Options} {b : UInt8} {n : Branch} {c : Container} {frames : Nat} {r : Request} {log called : Logged}
  {e : Entry} {entries : List Entry}

/-! ## Sound values -/

/-- A number has the byte itself, for whatever else would have it first is a container. -/
theorem Handed.eq_alone_of_number {number : Branch} (handed : Handed o b r log) (sound : r.value.Sound)
    (ended : log.outcome = .ok (number, .complete)) (kind : number.kind = some .number) :
    log = ⟨[⟨r, log.outcome⟩], log.outcome⟩ := by
  cases handed with
  | alone outcome =>
      rfl
  | begun first pending =>
      exact absurd ended (pending number)
  | current active handed pending =>
      exact absurd ended (pending number)
  | again waits active handed number_ended number_kind outcome_eq =>
      have container := container?_eq_some_iff.1 (sound.container_of_waits waits)
      have same := (ended_of_feedAfterChild (outcome_eq.symm.trans ended)).kind
      rw [kind] at same
      cases same.trans container

/-- The calls made for a value go to it or to something inside. -/
theorem Handed.exists_path (handed : Handed o b r log) : ∀ e ∈ log.entries, ∃ path, e.path = r.path ++ path := by
  have here : ∃ path, r.path = r.path ++ path := ⟨[], (List.append_nil _).symm⟩
  cases handed with
  | alone outcome =>
      exact List.forall_mem_singleton.2 here
  | begun first pending =>
      exact List.forall_mem_cons.2 ⟨here, List.forall_mem_singleton.2 ⟨_, rfl⟩⟩
  | current active handed pending =>
      refine List.forall_mem_cons.2 ⟨here, fun e mem => ?_⟩
      rcases List.mem_map.1 mem with ⟨e, among, rfl⟩
      exact ⟨_, rfl⟩
  | again waits active handed ended kind outcome_eq =>
      refine List.forall_mem_cons.2 ⟨here, fun e mem => ?_⟩
      rcases List.mem_map.1 mem with ⟨e, among, rfl⟩
      exact ⟨_, rfl⟩

namespace ReplayedOnce

/-- No value is called again. -/
theorem of_none (none_again : ∀ e ∈ entries, e.reason ≠ .again)
    (apart : entries.Pairwise fun e later => e.path ≠ later.path) : ReplayedOnce entries where
  apart := apart.imp fun differ same => absurd same differ
  once := by
    rw [List.countP_eq_zero.2 fun e mem => by simpa using none_again e mem]
    exact Nat.zero_le 1
  closing _ _ _ replay mem again := absurd again (none_again replay mem)
  beginning _ _ _ := none_again

/-- The same of calls made for a child. -/
theorem inside (replayed : ReplayedOnce entries) (r : Request) : ReplayedOnce (entries.map (Entry.inside r)) where
  apart := List.pairwise_map.2 (replayed.apart.imp fun again same => again (List.append_cancel_left same))
  once := by
    rw [List.countP_map]
    exact replayed.once
  closing := by
    intro e mem closes replay mem' again
    rcases List.mem_map.1 mem with ⟨e, among, rfl⟩
    rcases List.mem_map.1 mem' with ⟨replay, among', rfl⟩
    exact congrArg (r.path ++ ·) (replayed.closing e among closes replay among' again)
  beginning := by
    intro e mem begun replay mem'
    rcases List.mem_map.1 mem with ⟨e, among, rfl⟩
    rcases List.mem_map.1 mem' with ⟨replay, among', rfl⟩
    exact replayed.beginning e among begun replay among'

/-- The value that calls for the child is in progress after the byte. -/
theorem cons (replayed : ReplayedOnce entries) (current : e.reason = .current) (pending : ¬ e.Closes)
    (apart : ∀ later ∈ entries, e.path ≠ later.path) : ReplayedOnce (e :: entries) where
  apart := List.pairwise_cons.2 ⟨fun later mem same => absurd same (apart later mem), replayed.apart⟩
  once := by
    rw [List.countP_cons_of_neg (by simp [current])]
    exact replayed.once
  closing := by
    intro inner mem closes replay mem' again
    rcases List.mem_cons.1 mem with rfl | mem
    · exact absurd closes pending
    · rcases List.mem_cons.1 mem' with rfl | mem'
      · cases current.symm.trans again
      · exact replayed.closing inner mem closes replay mem' again
  beginning := by
    intro inner mem begun replay mem' again
    rcases List.mem_cons.1 mem with rfl | mem
    · cases current.symm.trans begun
    · rcases List.mem_cons.1 mem' with rfl | mem'
      · cases current.symm.trans again
      · exact replayed.beginning inner mem begun replay mem' again

/-- The last of the calls is for a value again. -/
theorem concat (entries : List Entry) {replay : Entry} (again : replay.reason = .again)
    (apart : entries.Pairwise fun e later => e.path ≠ later.path) (current : ∀ e ∈ entries, e.reason = .current)
    (closing : ∀ e ∈ entries, e.Closes → replay.path = e.path) : ReplayedOnce (entries ++ [replay]) where
  apart := by
    refine List.pairwise_append.2 ⟨apart.imp fun differ same => absurd same differ, List.pairwise_singleton _ _, ?_⟩
    intro e mem later last same
    rwa [List.mem_singleton.1 last]
  once := by
    have none_before : entries.countP (fun e => e.reason = .again) = 0 :=
      List.countP_eq_zero.2 fun e mem => by simp [current e mem]
    rw [List.countP_append, none_before, Nat.zero_add]
    exact List.countP_le_length
  closing := by
    intro e mem closes other mem' isAgain
    rcases List.mem_append.1 mem' with among' | last'
    · cases (current other among').symm.trans isAgain
    · rw [List.mem_singleton.1 last']
      rcases List.mem_append.1 mem with among | last
      · exact closing e among closes
      · rw [List.mem_singleton.1 last]
  beginning := by
    intro e mem begun
    rcases List.mem_append.1 mem with among | last
    · cases (current e among).symm.trans begun
    · rw [List.mem_singleton.1 last] at begun
      cases begun.symm.trans again

end ReplayedOnce

/-- A container and its child have different addresses. -/
theorem path_ne_inside (r : Request) (reason : Reason) (child : Branch) (path : Path) :
    r.path ≠ r.path ++ ((Request.child r.value reason child r.depth).path ++ path) := by
  intro same
  cases List.self_eq_append_right.1 same

/-- From how one call is made to all calls of the byte, along the chain. -/
theorem replayedOnce_of_handed (handed : Handed o b r log) (sound : r.value.AllSound) (current : r.reason = .current) :
    ReplayedOnce log.entries := by
  induction handed with
  | alone outcome =>
      refine .of_none (List.forall_mem_singleton.2 ?_) (List.pairwise_singleton _ _)
      exact current ▸ nofun
  | @begun r outcome first pending =>
      refine .of_none (List.forall_mem_cons.2 ⟨current ▸ nofun, List.forall_mem_singleton.2 nofun⟩) ?_
      exact List.pairwise_pair.2 (path_ne_inside r .begun fresh [])
  | @current r child called outcome active handed pending ih =>
      refine ((ih (sound.active active) rfl).inside _).cons current ?_ ?_
      · rintro ⟨m, c, ended, container⟩
        exact pending m ended
      · intro later mem
        rcases List.mem_map.1 mem with ⟨e, among, rfl⟩
        rcases handed.exists_path e among with ⟨path, path_eq⟩
        change r.path ≠ r.path ++ e.path
        rw [path_eq]
        exact path_ne_inside r .current child path
  | @again r child number c called waits active handed ended kind outcome outcome_eq ih =>
      have alone := handed.eq_alone_of_number (sound.active active child (.refl child)) ended kind
      rw [alone]
      -- The calls are one for the value, one for the number, and one for the value again.
      refine .concat [⟨r, outcome⟩, Entry.inside r ⟨.child r.value .current child r.depth, called.outcome⟩]
        rfl (List.pairwise_pair.2 (path_ne_inside r .current child [])) ?_ ?_
      · exact List.forall_mem_cons.2 ⟨current, List.forall_mem_singleton.2 rfl⟩
      · refine List.forall_mem_cons.2 ⟨fun _ => List.append_nil _, List.forall_mem_singleton.2 ?_⟩
        rintro ⟨m, outer, closed, container⟩
        cases ended.symm.trans closed
        cases kind.symm.trans (container?_eq_some_iff.1 container)

/-! ## Documents -/

/-- A document that has ended makes no calls. -/
theorem rule_of_done (done : n.stage = none) : n.rule o b depth = .done (n.feedDone o b) := by
  rw [rule, done]

section

variable (sound : n.AllSound)

include sound

/-- The document is a number that ends with the byte, which comes after it then. -/
theorem exists_performFeed_of_again {m : Branch} (made : (Request.document n .current).perform o b frames = some called)
    (performed : Performed o b (.document n .current) called) (answered : called.outcome = .ok (m, .complete))
    (live : n.isComplete = false) (kind : m.kind = some .number) :
    ∃ log, n.performFeed o b frames = some log ∧ log.outcome = m.advance o b 0 ∧
      log.entries.map (fun e => e.toCall) = (n.trace o b 0).entries ++ [{ depth := 0, value := m }] ∧
      ReplayedOnce log.entries := by
  have alone := performed.handed.eq_alone_of_number (sound n (.refl n)) answered kind
  have done : m.stage = none := (ended_of_advance (performed.outcome.symm.trans answered)).stage
  obtain ⟨fewer, rfl⟩ : ∃ fewer, frames = fewer + 1 := by
    cases frames with
    | zero =>
        cases made
    | succ fewer =>
        exact ⟨fewer, rfl⟩
  have second : Request.perform o b (fewer + 1) (.document m .again) = _ :=
    perform_of_done fewer (rule_of_done done)
  refine ⟨_, Rule.perform_of_again made answered (if_pos ⟨rfl, live, kind⟩) second, (advance_of_done done 0).symm,
    ?_, ?_⟩
  · rw [List.map_append, performed.calls_document]
    rfl
  · rw [alone]
    exact .concat [⟨.document n .current, called.outcome⟩] rfl (List.pairwise_singleton _ _)
      (List.forall_mem_singleton.2 rfl) (List.forall_mem_singleton.2 fun _ => rfl)

/-- The calls for a byte are carried out, and they are those that the record of the byte lists. -/
theorem exists_performFeed (enough : n.chain.length < frames) :
    ∃ log, n.performFeed o b frames = some log ∧ log.outcome = n.feed o b ∧
      log.entries.map (fun e => e.toCall) = n.calls o b ∧ ReplayedOnce log.entries := by
  rcases exists_performed (o := o) (b := b) (r := .document n .current) enough with ⟨called, made, performed⟩
  have replayed := replayedOnce_of_handed performed.handed sound rfl
  have outcome : (n.trace o b 0).outcome = called.outcome := (outcome_trace 0 n).trans performed.outcome.symm
  rw [← outcome_feedTrace, calls, feedTrace]
  cases answered : called.outcome with
  | error fault =>
      rw [Traced.bind_of_error (outcome.trans answered)]
      exact ⟨_, Rule.perform_of_refused made answered, rfl, performed.calls_document, replayed⟩
  | ok result =>
      rcases result with ⟨m, status⟩
      rw [Traced.bind_of_ok (outcome.trans answered)]
      by_cases again : status = .complete ∧ n.isComplete = false ∧ m.kind = some .number
      · rcases again with ⟨rfl, live, kind⟩
        rcases exists_performFeed_of_again sound made performed answered live kind with
          ⟨log, run, outcome_eq, listed, replayed⟩
        rw [if_pos ⟨rfl, live, kind⟩]
        exact ⟨log, run, outcome_eq, listed, replayed⟩
      · refine ⟨_, Rule.perform_of_answered made answered (if_neg again), ?_, ?_, replayed⟩
        · rw [if_neg again]
          rfl
        · rw [if_neg again, performed.calls_document]
          exact (List.append_nil _).symm

end

/-! ## All that is said of one byte -/

/-- Whatever value is called, reachable or not, and whatever it is told, calls come to an end. Each goes to the child
in progress or to one that begins, or once more to the value itself, at a stage where it makes no call. In a tree
that bytes have led to, at most one value has a byte again; if one has, no container around it closes, and no child
begins with the byte. -/
theorem calls_end_and_replay_once (o : Options) (b : UInt8) {steps : List (Options × UInt8)}
    (run : fresh.feedEach steps = .ok n) :
    WellFounded (Request.Follows o b) ∧
      (∀ (m : Branch) (depth : Nat), m.Orderly o b depth (m.rule o b depth)) ∧
      (∀ (r : Request) (frames : Nat), r.value.chain.length < frames →
        ∃ log, r.perform o b frames = some log ∧ log.outcome = r.value.advance o b r.depth) ∧
      ∀ frames, n.chain.length < frames → ∃ log, n.performFeed o b frames = some log ∧ log.outcome = n.feed o b ∧
        log.entries.map (fun e => e.toCall) = n.calls o b ∧ ReplayedOnce log.entries := by
  refine ⟨wellFounded_follows o b, fun m depth => orderly_rule m o b depth, ?_, ?_⟩
  · intro r frames enough
    rcases exists_performed (o := o) (b := b) enough with ⟨log, made, performed⟩
    exact ⟨log, made, performed.outcome⟩
  · intro frames enough
    -- The nested form of a run is the form of a tree, and what trees come to is sound.
    rw [Tree.feedEach_fresh] at run
    cases treeRun : Tree.empty.feedEach steps with
    | error fault =>
        rw [treeRun] at run
        cases run
    | ok t =>
        rw [treeRun] at run
        cases run
        exact exists_performFeed (Tree.allSound_branch (Tree.placed_of_feedEach treeRun)) enough

/-- In `[[1` a closing bracket ends the number and the inner array, which is called again and closes. The outer array
is not called again. -/
theorem calls_end_and_replay_once_inner :
    fresh.feedEach [({}, Byte.openBracket), ({}, Byte.openBracket), ({}, 0x31)] =
        .ok (Tree.live [.array #[], .array #[]] (.number #[0x31])).branch ∧
      ∃ log, (Tree.live [.array #[], .array #[]] (.number #[0x31])).branch.performFeed {} Byte.closeBracket 4 =
          some log ∧
        log.entries.map (fun e => (e.path, e.reason)) =
          [([], .current), ([0], .current), ([0, 0], .current), ([0], .again)] ∧
        ReplayedOnce log.entries := by
  have run : fresh.feedEach [({}, Byte.openBracket), ({}, Byte.openBracket), ({}, 0x31)] =
      .ok (Tree.live [.array #[], .array #[]] (.number #[0x31])).branch := by
    rfl
  refine ⟨run, ?_⟩
  rcases (calls_end_and_replay_once {} Byte.closeBracket run).2.2.2 4 (by decide) with ⟨log, made, -, -, replayed⟩
  refine ⟨log, made, ?_, replayed⟩
  have computed :
      ((Tree.live [.array #[], .array #[]] (.number #[0x31])).branch.performFeed {} Byte.closeBracket 4).map
          (fun log => log.entries.map fun e => (e.path, e.reason)) =
        some [([], .current), ([0], .current), ([0, 0], .current), ([0], .again)] := by
    decide +kernel
  rw [made] at computed
  exact Option.some.inj computed

end JsonStream.Branch
