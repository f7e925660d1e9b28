import JsonStream.Proofs.Branch.Innermost
import JsonStream.Session.Run

/-!
# Where a number ends

A number has no last byte of its own, and the byte after it is looked at by the number and then by what is
around it. All the same such a byte acts once: it does what it would do if white space had ended the number
before. It acts on the container directly around the number, so a bracket there closes that one only.

- `Tree.openContainers_of_takes` — which containers a byte after a value closes
- `Tree.feed_after_number` — a byte after a number is one after the value that the number is
- `Session.boundary_of_read`, `Session.number_boundary` — sessions
-/

namespace JsonStream

variable {o : Options} {outer : List Frame} {items : Array Value} {members : Array (Bytes × Value)}
  {literal : Array UInt8} {x : Binary64} {b w : UInt8} {t : Tree} {events : List Event}

/-! ## Open containers -/

namespace Tree

/-- Around a number the open containers are those of the frames. -/
theorem openContainers_number :
    (live outer (.number literal)).branch.openContainers = (outer.map Frame.container).reverse :=
  Branch.openContainers_plug.trans (List.append_nil _)

/-! Between two children a container waits for a comma or a child, and is open all the same. -/

theorem openContainers_elementEnd :
    (settled (.element outer items)).branch.openContainers = (outer.map Frame.container).reverse ++ [.array] :=
  Branch.openContainers_plug

theorem openContainers_element :
    (live outer (.element items)).branch.openContainers = (outer.map Frame.container).reverse ++ [.array] :=
  Branch.openContainers_plug

theorem openContainers_memberEnd :
    (settled (.member outer members)).branch.openContainers = (outer.map Frame.container).reverse ++ [.object] :=
  Branch.openContainers_plug

theorem openContainers_name :
    (live outer (.name members)).branch.openContainers = (outer.map Frame.container).reverse ++ [.object] :=
  Branch.openContainers_plug

/-- A value that ends leaves the containers around it open. -/
theorem openContainers_of (outer : List Frame) (v : Value) :
    (settled (.of outer v)).branch.openContainers = (outer.map Frame.container).reverse := by
  cases outer with
  | nil =>
      cases v <;> rfl
  | cons f outer =>
      rw [List.map_cons, List.reverse_cons]
      cases f with
      | array items =>
          exact openContainers_elementEnd
      | object members name =>
          exact openContainers_memberEnd

/-- After a value a closing bracket closes the innermost container, and no other byte closes or opens one. -/
theorem openContainers_of_takes {s : Settled} (takes : s.Takes o b t events) :
    (∃ c : Container, b = c.closing ∧ (settled s).branch.openContainers = t.branch.openContainers ++ [c]) ∨
      ((∀ c : Container, b ≠ c.closing) ∧ (settled s).branch.openContainers = t.branch.openContainers) := by
  cases takes with
  | space space =>
      refine .inr ⟨?_, rfl⟩
      rintro c rfl
      exact o.not_isSpace c.space_lt_closing space
  | nextElement =>
      refine .inr ⟨?_, openContainers_elementEnd.trans openContainers_element.symm⟩
      intro c
      cases c <;> decide
  | closeArray =>
      refine .inl ⟨.array, rfl, ?_⟩
      rw [openContainers_elementEnd, openContainers_of]
  | nextMember =>
      refine .inr ⟨?_, openContainers_memberEnd.trans openContainers_name.symm⟩
      intro c
      cases c <;> decide
  | closeObject =>
      refine .inl ⟨.object, rfl, ?_⟩
      rw [openContainers_memberEnd, openContainers_of]

end Tree

/-! ## After a number -/

/-- After a value the closing bracket of the innermost container is accepted, and that of the other kind is
refused in its name. -/
theorem Settled.feed_closing (f : Frame) (outer : List Frame) (v : Value) :
    (∃ t events, (Settled.of (f :: outer) v).feed o f.container.closing = .ok (t, events)) ∧
      (Settled.of (f :: outer) v).feed o f.container.other.closing =
        .error (.mismatchedTerminator f.container.closing f.container.other.closing) := by
  cases f with
  | array items =>
      exact ⟨⟨_, _, feed_eq_ok_iff.2 .closeArray⟩,
        if_neg (o.not_isSpace (Container.space_lt_closing .object))⟩
  | object members name =>
      exact ⟨⟨_, _, feed_eq_ok_iff.2 .closeObject⟩,
        if_neg (o.not_isSpace (Container.space_lt_closing .array))⟩

/-- After a value nothing but white space, a comma and the closing brackets is of any use. -/
theorem Settled.feed_of_neither (s : Settled) (ends : ¬ (o.isSpace b = true ∨ Byte.followsNumber b = true)) :
    s.feed o b = .error (.unexpectedByte b) := by
  rcases not_or.1 ends with ⟨notSpace, follows⟩
  simp only [Byte.followsNumber, Bool.or_eq_true, beq_iff_eq, not_or] at follows
  rcases follows with ⟨⟨notComma, notBracket⟩, notBrace⟩
  cases s with
  | document v =>
      rw [feed, if_neg notSpace]
  | element outer items =>
      simp only [feed, if_neg notSpace, if_neg notComma, if_neg notBracket, if_neg notBrace]
  | member outer members =>
      simp only [feed, if_neg notSpace, if_neg notComma, if_neg notBracket, if_neg notBrace]

namespace Tree

/-- A number that can be read gives every byte after it to the place where it has ended. -/
theorem feed_after_number (read : Binary64.read? literal.toList = some x) (part : Byte.inNumber b = false) :
    (live outer (.number literal)).feed o b = (settled (.of outer (.number x))).feed o b := by
  rw [feed_settled]
  by_cases ends : o.isSpace b = true ∨ Byte.followsNumber b = true
  · rw [feed_number_of_ends ends, numberOf_eq_ok_iff.2 ⟨x, read, rfl⟩]
    rfl
  · rw [feed_number_of_neither part ends, Settled.feed_of_neither _ ends]

end Tree

/-! ## Sessions -/

namespace Session

variable {s : Session} {status : Status}

/-- What a session does with the byte after the number that it is inside of, when that can be read as `x`. The
root is its tree from the outside in. -/
structure Boundary (s : Session) (x : Binary64) : Prop where
  spaced : ∀ w b, s.options.isSpace w = true → Byte.inNumber b = false →
    (∃ status, (s.feed w).answer = .ok status) ∧ (s.feed w).session.outcome b = s.outcome b
  root : ∀ w b, s.options.isSpace w = true → Byte.inNumber b = false →
    ((s.current.branch.feed s.options w).bind fun result => result.1.feed s.options b) =
      s.current.branch.feed s.options b
  -- It acts once, where the number has ended.
  once : ∃ outer literal, s.current = .live outer (.number literal) ∧
    ∀ b, Byte.inNumber b = false →
      s.current.feed s.options b = (Settled.of outer (.number x)).feed s.options b
  outside : s.current.branch.openContainers = [] →
    ∀ c : Container, (s.feed c.closing).answer = .error ⟨.unexpectedByte c.closing, s.position⟩
  -- The container directly around the number takes its own bracket and refuses the other.
  enclosing : ∀ c, s.current.branch.openContainers.getLast? = some c →
    (∃ status, (s.feed c.closing).answer = .ok status) ∧
      (s.feed c.other.closing).answer =
        .error ⟨.mismatchedTerminator c.closing c.other.closing, s.position⟩
  closes : ∀ (c : Container) status, (s.feed c.closing).answer = .ok status →
    s.current.branch.openContainers = (s.feed c.closing).session.current.branch.openContainers ++ [c]
  keeps : ∀ b status, Byte.inNumber b = false → (s.feed b).answer = .ok status →
    (∀ c : Container, b ≠ c.closing) →
      s.current.branch.openContainers = (s.feed b).session.current.branch.openContainers

/-! Inside a number that can be read: first one byte, then the brackets. -/

section

variable (current : s.current = .live outer (.number literal)) (read : Binary64.read? literal.toList = some x)

include current read

/-- The byte after a number comes to where the number has ended. -/
theorem feed_after_number (part : Byte.inNumber b = false) :
    s.current.feed s.options b = (Settled.of outer (.number x)).feed s.options b := by
  rw [current, Tree.feed_after_number read part, Tree.feed_settled]

/-- White space ends the number and changes nothing else. -/
theorem feed_space_after_number (space : s.options.isSpace w = true) :
    s.current.feed s.options w = .ok (.settled (.of outer (.number x)), []) := by
  rw [feed_after_number current read (Byte.not_inNumber_of_ends (.inl space)), Settled.feed_eq_ok_iff]
  exact .space space

/-- A byte that is accepted after a number is taken where the number has ended. -/
theorem takes_after_number (part : Byte.inNumber b = false) (accepted : (s.feed b).answer = .ok status) :
    ∃ events, (Settled.of outer (.number x)).Takes s.options b (s.feed b).session.current events := by
  rcases feed_answer_eq_ok_iff.1 accepted with ⟨t, events, taken, -⟩
  rw [feed_of_ok taken]
  rw [feed_after_number current read part, Settled.feed_eq_ok_iff] at taken
  exact ⟨events, taken⟩

/-- Whether white space has ended the number before makes no difference to a byte. -/
theorem outcome_after_space (space : s.options.isSpace w = true) (part : Byte.inNumber b = false) :
    (s.feed w).session.outcome b = s.outcome b := by
  have fed : s.current.feed s.options b =
      (Tree.settled (.of outer (.number x))).feed s.options b := by
    rw [feed_after_number current read part, Tree.feed_settled]
  rw [outcome_eq, outcome_eq, fed, feed_of_ok (feed_space_after_number current read space)]
  rfl

/-- Nor does it at the root, with all that is remembered there. -/
theorem root_after_space (space : s.options.isSpace w = true) (part : Byte.inNumber b = false) :
    ((s.current.branch.feed s.options w).bind fun result => result.1.feed s.options b) =
      s.current.branch.feed s.options b := by
  rw [Tree.feed_branch, Tree.feed_branch, feed_space_after_number current read space,
    feed_after_number current read part, ← Tree.feed_settled, ← Tree.feed_branch]
  rfl

/-- Outside all containers a closing bracket after a number is unexpected. -/
theorem unexpected_after_number (none_open : s.current.branch.openContainers = []) (c : Container) :
    (s.feed c.closing).answer = .error ⟨.unexpectedByte c.closing, s.position⟩ := by
  rw [current, Tree.openContainers_number, List.reverse_eq_nil_iff, List.map_eq_nil_iff] at none_open
  subst none_open
  refine feed_answer_eq_error_iff.2 ⟨?_, rfl⟩
  rw [feed_after_number current read c.not_inNumber_closing]
  exact if_neg (s.options.not_isSpace c.space_lt_closing)

/-- After a number the innermost container takes its own bracket, and the other one is a mismatch. -/
theorem enclosing_after_number {c : Container} (innermost : s.current.branch.openContainers.getLast? = some c) :
    (∃ status, (s.feed c.closing).answer = .ok status) ∧
      (s.feed c.other.closing).answer =
        .error ⟨.mismatchedTerminator c.closing c.other.closing, s.position⟩ := by
  rw [current, Tree.openContainers_number, List.getLast?_reverse] at innermost
  cases outer with
  | nil =>
      cases innermost
  | cons f outer =>
      cases innermost
      rcases Settled.feed_closing (o := s.options) f outer (.number x) with ⟨⟨t, events, taken⟩, refused⟩
      rw [← feed_after_number current read (Container.not_inNumber_closing _)] at taken refused
      exact ⟨⟨_, feed_answer_eq_ok_iff.2 ⟨_, _, taken, rfl⟩⟩,
        feed_answer_eq_error_iff.2 ⟨refused, rfl⟩⟩

/-- A bracket that is accepted after a number closes the innermost container and no other. -/
theorem closes_after_number (c : Container) (accepted : (s.feed c.closing).answer = .ok status) :
    s.current.branch.openContainers = (s.feed c.closing).session.current.branch.openContainers ++ [c] := by
  rcases takes_after_number current read c.not_inNumber_closing accepted with ⟨events, taken⟩
  rw [current, Tree.openContainers_number, ← Tree.openContainers_of outer (.number x)]
  rcases Tree.openContainers_of_takes taken with ⟨d, same, closed⟩ | ⟨other, -⟩
  · obtain rfl := Container.closing_injective same
    exact closed
  · exact absurd rfl (other c)

/-- Any other byte that is accepted after a number leaves all containers open. -/
theorem keeps_after_number (part : Byte.inNumber b = false) (accepted : (s.feed b).answer = .ok status)
    (other : ∀ c : Container, b ≠ c.closing) :
    s.current.branch.openContainers = (s.feed b).session.current.branch.openContainers := by
  rcases takes_after_number current read part accepted with ⟨events, taken⟩
  rw [current, Tree.openContainers_number, ← Tree.openContainers_of outer (.number x)]
  rcases Tree.openContainers_of_takes taken with ⟨c, same, -⟩ | ⟨-, kept⟩
  · exact absurd same (other c)
  · exact kept

/-- All that is said of the byte after a number that can be read. -/
theorem boundary_of_read : s.Boundary x where
  spaced _ _ space part :=
    ⟨⟨_, feed_answer_eq_ok_iff.2 ⟨_, _, feed_space_after_number current read space, rfl⟩⟩,
      outcome_after_space current read space part⟩
  root _ _ := root_after_space current read
  once := ⟨outer, literal, current, fun _ => feed_after_number current read⟩
  outside := unexpected_after_number current read
  enclosing _ := enclosing_after_number current read
  closes c _ := closes_after_number current read c
  keeps _ _ := keeps_after_number current read

end

structure NumberBoundary (s : Session) (literal : Bytes) : Prop where
  read : ∀ x, Binary64.read? literal = some x → s.Boundary x
  broken : Binary64.read? literal = none → ∀ b,
    s.options.isSpace b = true ∨ Byte.followsNumber b = true →
      (s.feed b).answer = .error ⟨.invalidNumber literal, s.position⟩
  neither : ∀ b, Byte.inNumber b = false → ¬ (s.options.isSpace b = true ∨ Byte.followsNumber b = true) →
    (s.feed b).answer = .error ⟨.unexpectedByte b, s.position⟩

/-- A session whose innermost value is a number, at the byte after it. -/
theorem number_boundary (number : s.current.branch.innermost.stage = some .number) :
    s.NumberBoundary s.current.branch.innermost.token.toList := by
  rcases Tree.exists_number_of_innermost number with ⟨outer, literal, current⟩
  have token : s.current.branch.innermost.token = literal := by
    rw [current, Tree.innermost_number]
    rfl
  rw [token]
  refine ⟨fun x read => boundary_of_read current read, ?_, ?_⟩
  · intro unread b ends
    refine feed_answer_eq_error_iff.2 ⟨?_, rfl⟩
    rw [current, Tree.feed_number_of_ends ends, numberOf_eq_error_iff.2 ⟨unread, rfl⟩]
    rfl
  · intro b part ends
    refine feed_answer_eq_error_iff.2 ⟨?_, rfl⟩
    rw [current, Tree.feed_number_of_neither part ends]

/-- After `[[0` a bracket closes the inner array only, as it does after `[[0 `; after `[[-` it is refused. -/
theorem number_boundary_nested :
    (∃ s, (start {}).feedAll [Byte.openBracket, Byte.openBracket, Byte.digitZero] = .ok s ∧
      (s.feed Byte.space).session.outcome Byte.closeBracket = s.outcome Byte.closeBracket ∧
      [.array, .array] = (s.feed Byte.closeBracket).session.current.branch.openContainers ++ [.array] ∧
      (s.feed Byte.closeBrace).answer =
        .error ⟨.mismatchedTerminator Byte.closeBracket Byte.closeBrace, ⟨3, 1, 4⟩⟩) ∧
    ∃ s, (start {}).feedAll [Byte.openBracket, Byte.openBracket, Byte.minus] = .ok s ∧
      (s.feed Byte.closeBracket).answer = .error ⟨.invalidNumber [Byte.minus], ⟨3, 1, 4⟩⟩ := by
  have read_run : (start {}).feedAll [Byte.openBracket, Byte.openBracket, Byte.digitZero] =
      .ok ⟨{}, some (.live [.array #[], .array #[]] (.number #[Byte.digitZero])), ⟨3, 1, 4⟩⟩ := by
    rfl
  have broken_run : (start {}).feedAll [Byte.openBracket, Byte.openBracket, Byte.minus] =
      .ok ⟨{}, some (.live [.array #[], .array #[]] (.number #[Byte.minus])), ⟨3, 1, 4⟩⟩ := by
    rfl
  have read : Binary64.read? [Byte.digitZero] = some (.zero false) := by
    decide +kernel
  have unread : Binary64.read? [Byte.minus] = none := by
    decide +kernel
  refine ⟨⟨_, read_run, ?_⟩, _, broken_run, ?_⟩
  · have boundary := number_boundary
      (s := ⟨{}, some (.live [.array #[], .array #[]] (.number #[Byte.digitZero])), ⟨3, 1, 4⟩⟩) rfl
    have after := boundary.read _ read
    rcases after.enclosing .array rfl with ⟨⟨status, accepted⟩, refused⟩
    exact ⟨(after.spaced _ _ rfl rfl).2, after.closes .array status accepted, refused⟩
  · have boundary := number_boundary
      (s := ⟨{}, some (.live [.array #[], .array #[]] (.number #[Byte.minus])), ⟨3, 1, 4⟩⟩) rfl
    exact boundary.broken unread _ (.inr rfl)

end Session

end JsonStream
