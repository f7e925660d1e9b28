import JsonStream.Proofs.Session.Operations
import JsonStream.Proofs.Tree.Boundary
import JsonStream.Proofs.Tree.Scanning

/-!
# The chain is the stack of the bracket scanner

The containers on the chain of a tree that have not ended are those that the bracket scanner has on its stack,
and the innermost value of the chain is a string exactly while the scanner is inside one. So a byte opens one
container, or closes the innermost one with its own bracket, or leaves all of them open.

- `Tree.openContainers_branch` — the chain of a tree
- `Tree.stack_of_closing` — a closing bracket that is accepted
- `Session.bracketed_of_feedAll` — sessions
-/

namespace JsonStream

variable {o : Options} {outer : List Frame} {name : Option Bytes} {b : UInt8} {t u : Tree} {events : List Event}
  {bytes : Bytes}

theorem Container.closing_not_mem_spelling (c : Container) (word : Keyword) : c.closing ∉ word.spelling := by
  cases word with
  | null =>
      cases c <;> decide
  | bool d =>
      cases d <;> cases c <;> decide

/-! ## The chain of a tree -/

namespace Tree

/-- The open containers of the branch are those that the scanner has on its stack. -/
theorem openContainers_branch (t : Tree) : t.branch.openContainers = t.scanned.stack.reverse := by
  -- Besides the frames only the innermost container counts, and a name in progress is inside one.
  cases t with
  | settled place =>
      cases place with
      | document v =>
          cases v <;> rfl
      | element outer items =>
          rw [branch, Settled.branch, Branch.openContainers_plug, scanned, List.reverse_cons]
          rfl
      | member outer members =>
          rw [branch, Settled.branch, Branch.openContainers_plug, scanned, List.reverse_cons]
          rfl
  | live outer focus =>
      rw [branch, Branch.openContainers_plug, scanned]
      cases focus with
      | string role text =>
          cases role with
          | value =>
              exact List.append_nil _
          | name members =>
              exact List.reverse_cons.symm
      | escape role text =>
          cases role with
          | value =>
              exact List.append_nil _
          | name members =>
              exact List.reverse_cons.symm
      | element items =>
          exact List.reverse_cons.symm
      | name members =>
          exact List.reverse_cons.symm
      | colon members called =>
          exact List.reverse_cons.symm
      | _ =>
          exact List.append_nil _

/-- The innermost value is a string exactly where the scanner is inside one. -/
theorem innermostStage?_eq_string_iff : t.innermostStage? = some .string ↔ t.scanned.mode = .inside := by
  cases t with
  | settled place =>
      cases place <;> exact iff_of_false nofun nofun
  | live outer focus =>
      cases focus with
      | string role text =>
          cases role <;> exact iff_of_true rfl rfl
      | escape role text =>
          cases role <;> exact iff_of_false nofun nofun
      | _ =>
          exact iff_of_false nofun nofun

/-- It waits for the rest of an escape exactly where the scanner does. -/
theorem innermostStage?_eq_escape_iff : t.innermostStage? = some .escape ↔ t.scanned.mode = .escaped := by
  cases t with
  | settled place =>
      cases place <;> exact iff_of_false nofun nofun
  | live outer focus =>
      cases focus with
      | string role text =>
          cases role <;> exact iff_of_false nofun nofun
      | escape role text =>
          cases role <;> exact iff_of_true rfl rfl
      | _ =>
          exact iff_of_false nofun nofun

/-! ## Closing brackets -/

/-- A closing bracket after a value takes its own container off the stack. -/
theorem stack_of_closing_settled {s : Settled} {c : Container} (takes : s.Takes o b u events)
    (closing : b = c.closing) : (settled s).scanned.stack = c :: u.scanned.stack := by
  cases takes with
  | space space =>
      subst closing
      exact absurd space (o.not_isSpace c.space_lt_closing)
  | closeArray =>
      obtain rfl : Container.array = c := Container.closing_injective closing
      rw [scanned_of]
      rfl
  | closeObject =>
      obtain rfl : Container.object = c := Container.closing_injective closing
      rw [scanned_of]
      rfl
  | _ =>
      cases c <;> exact absurd closing (by decide)

/-- Outside strings, a closing bracket that is accepted closes the innermost container, which is of its kind. -/
theorem stack_of_closing {c : Container} (takes : Takes o t b u events) (closing : b = c.closing)
    (outside : t.scanned.mode = .outside) : t.scanned.stack = c :: u.scanned.stack := by
  -- A bracket is no white space, no letter and no part of a number, and it begins nothing.
  cases takes with
  | settled rest =>
      exact stack_of_closing_settled rest closing
  | numberEnd ends value rest =>
      have ended := stack_of_closing_settled rest closing
      rwa [scanned_of] at ended
  | elementClose =>
      obtain rfl : Container.array = c := Container.closing_injective closing
      rw [scanned_of]
      rfl
  | nameClose =>
      obtain rfl : Container.object = c := Container.closing_injective closing
      rw [scanned_of]
      rfl
  | blankBegins begins =>
      exact absurd closing (begins.not_closing c)
  | elementBegins begins =>
      exact absurd closing (begins.not_closing c)
  | numberNext part fits =>
      rw [closing, c.not_inNumber_closing] at part
      cases part
  | keywordNext next more =>
      exact absurd (List.mem_of_getElem? (closing ▸ next)) (c.closing_not_mem_spelling _)
  | keywordEnd next last =>
      exact absurd (List.mem_of_getElem? (closing ▸ next)) (c.closing_not_mem_spelling _)
  | blankSpace space =>
      exact absurd (closing ▸ space) (o.not_isSpace c.space_lt_closing)
  | elementSpace space =>
      exact absurd (closing ▸ space) (o.not_isSpace c.space_lt_closing)
  | nameSpace space =>
      exact absurd (closing ▸ space) (o.not_isSpace c.space_lt_closing)
  | colonSpace space =>
      exact absurd (closing ▸ space) (o.not_isSpace c.space_lt_closing)
  | @stringPlain outer role text b notQuote notBackslash fits =>
      cases role <;> cases outside
  | @escape outer role text b d decoded fits =>
      cases role <;> cases outside
  | _ =>
      cases c <;> exact absurd closing (by decide)

end Tree

/-! ## One byte -/

/-- What a byte may do to the open containers, which are listed with the outermost first. -/
inductive Brackets.Change (b : UInt8) : List Container → List Container → Prop
  | keep (stack : List Container) : Change b stack stack
  | opened {stack : List Container} {c : Container} (opening : b = c.opening) : Change b stack (stack ++ [c])
  | closed {stack : List Container} {c : Container} (closing : b = c.closing) : Change b (stack ++ [c]) stack

/-- Inside strings no bracket counts. -/
theorem Brackets.Scan.stack_next_of_mode {s : Scan} (inString : s.mode ≠ .outside) :
    (s.next b).stack = s.stack := by
  rcases s with ⟨mode, stack⟩
  cases mode with
  | outside =>
      exact absurd rfl inString
  | inside =>
      simp only [next]
      split
      · rfl
      · split <;> rfl
  | escaped =>
      rfl

/-- A byte that is no bracket leaves the stack as it is. -/
theorem Brackets.Scan.stack_outside {stack : List Container} (notOpening : ∀ c : Container, b ≠ c.opening)
    (notClosing : ∀ c : Container, b ≠ c.closing) : (outside stack b).stack = stack := by
  have opensNone : Container.openedBy? b = none :=
    Option.eq_none_iff_forall_ne_some.2 fun c opened => notOpening c (Container.openedBy?_eq_some_iff.1 opened)
  have closesNone : Container.closedBy? b = none :=
    Option.eq_none_iff_forall_ne_some.2 fun c closed => notClosing c (Container.closedBy?_eq_some_iff.1 closed)
  rw [outside, opensNone, closesNone]
  split <;> rfl

namespace Tree

open Brackets (Change)

/-- One byte opens one container, or closes the innermost, or does neither. -/
theorem change_of_takes (takes : Takes o t b u events) :
    Change b t.branch.openContainers u.branch.openContainers := by
  rw [openContainers_branch, openContainers_branch]
  have next := next_of_takes takes
  by_cases outside : t.scanned.mode = .outside
  · have scanned : Brackets.Scan.outside t.scanned.stack b = u.scanned := by
      rwa [Brackets.Scan.next, outside] at next
    by_cases opening : ∃ c : Container, b = c.opening
    · rcases opening with ⟨c, rfl⟩
      rw [← scanned, Brackets.Scan.outside_opening, List.reverse_cons]
      exact .opened rfl
    · by_cases closing : ∃ c : Container, b = c.closing
      · -- The scanner would pop any bracket, but the tree has accepted this one.
        rcases closing with ⟨c, same⟩
        rw [stack_of_closing takes same outside, List.reverse_cons]
        exact .closed same
      · rw [← scanned, Brackets.Scan.stack_outside (not_exists.1 opening) (not_exists.1 closing)]
        exact .keep _
  · rw [← next, Brackets.Scan.stack_next_of_mode outside]
    exact .keep _

end Tree

/-! ## Sessions -/

namespace Session

variable {s : Session}

/-- A session that has been fed some bytes, beside the bracket scanner that has gone over the same bytes. -/
structure Bracketed (o : Options) (bytes : Bytes) (s : Session) : Prop where
  root : Branch.fresh.feedEach (bytes.map fun b => (o, b)) = .ok s.current.branch
  openContainers : s.current.branch.openContainers = (Brackets.scan bytes).stack.reverse
  string_iff : s.current.branch.innermost.stage = some .string ↔ (Brackets.scan bytes).mode = .inside
  escape_iff : s.current.branch.innermost.stage = some .escape ↔ (Brackets.scan bytes).mode = .escaped
  change : ∀ b status, (s.feed b).answer = .ok status →
    Brackets.Change b s.current.branch.openContainers (s.feed b).session.current.branch.openContainers
  closing : ∀ (c : Container) status, (Brackets.scan bytes).mode = .outside →
    (s.feed c.closing).answer = .ok status →
      s.current.branch.openContainers =
        (s.feed c.closing).session.current.branch.openContainers ++ [c]

/-- The chain of a session is the stack of the bracket scanner, after any bytes. -/
theorem bracketed_of_feedAll (run : (start o).feedAll bytes = .ok s) : Bracketed o bytes s := by
  have scanned := Tree.scan_of_feedAll (current_of_feedAll run).1
  refine ⟨?_, ?_, ?_, ?_, ?_, ?_⟩
  · exact (asNew_of_feedAll run).root
  · rw [scanned, Tree.openContainers_branch]
  · rw [scanned, Tree.stage_innermost, Tree.innermostStage?_eq_string_iff]
  · rw [scanned, Tree.stage_innermost, Tree.innermostStage?_eq_escape_iff]
  · intro b status accepted
    rcases feed_answer_eq_ok_iff.1 accepted with ⟨t, events, taken, -⟩
    rw [feed_of_ok taken]
    exact Tree.change_of_takes (Tree.takes_of_feed taken)
  · intro c status outside accepted
    rcases feed_answer_eq_ok_iff.1 accepted with ⟨t, events, taken, -⟩
    rw [scanned] at outside
    have closed := Tree.stack_of_closing (Tree.takes_of_feed taken) rfl outside
    have now : (s.feed c.closing).session.current = t := by
      rw [feed_of_ok taken]
      rfl
    rw [now, Tree.openContainers_branch, Tree.openContainers_branch, closed, List.reverse_cons]

/-- In `[{"}":1` the brace in the name is none, so another one ends the number and closes the object. -/
theorem bracketed_brace_in_name :
    ∃ s, (start {}).feedAll [0x5B, 0x7B, 0x22, 0x7D, 0x22, 0x3A, 0x31] = .ok s ∧
      s.current.branch.openContainers = [.array, .object] ∧
      s.current.branch.innermost.stage ≠ some .string ∧
      (s.feed Byte.closeBrace).answer = .ok .pending ∧
      [.array, .object] = (s.feed Byte.closeBrace).session.current.branch.openContainers ++ [.object] := by
  have run : (start {}).feedAll [0x5B, 0x7B, 0x22, 0x7D, 0x22, 0x3A, 0x31] =
      .ok ⟨{}, some (.live [.object #[] [0x7D], .array #[]] (.number #[0x31])), ⟨7, 1, 8⟩⟩ := by
    rfl
  have accepted : ((Session.mk {} (some (.live [.object #[] [0x7D], .array #[]] (.number #[0x31])))
      ⟨7, 1, 8⟩).feed Byte.closeBrace).answer = .ok .pending := by
    decide +kernel
  have bracketed := bracketed_of_feedAll run
  refine ⟨_, run, bracketed.openContainers, ?_, accepted, bracketed.closing .object _ rfl accepted⟩
  rw [Ne, bracketed.string_iff]
  decide

end Session

end JsonStream
