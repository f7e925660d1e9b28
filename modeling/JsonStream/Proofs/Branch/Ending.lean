import JsonStream.Branch

/-!
# What a value is that ends with a byte

The rules answer for a byte whether the value has ended with it. Each rule that can say so leaves the kind as it was
and nothing to wait for; the others never say so. Nothing is assumed of the value.

- `Branch.Ended` — a value before and after the byte that it ends with
- `Branch.ended_of_advance` — any value, at any stage
-/

namespace JsonStream.Branch

variable {o : Options} {b : UInt8} {n m : Branch} {c : Container} {depth : Nat}

/-- A value that ends keeps its kind and waits for nothing. -/
structure Ended (n m : Branch) : Prop where
  kind : m.kind = n.kind
  stage : m.stage = none

theorem Ended.of_complete (n : Branch) : n.Ended n.complete :=
  ⟨rfl, rfl⟩

/-! ## Rules that end nothing -/

/-- A token that becomes longer has not ended. -/
theorem extend_ne_complete {token : Array UInt8} {d : UInt8} {p : Array UInt8 → Branch} :
    ((o.extend token d).map fun longer => (p longer, Status.pending)) ≠ .ok (m, .complete) := by
  intro fed
  cases extended : o.extend token d with
  | error fault =>
      rw [extended] at fed
      cases fed
  | ok longer =>
      rw [extended] at fed
      cases fed

/-- No value ends with its first byte. -/
theorem feedStart_ne_complete : n.feedStart o depth b ≠ .ok (m, .complete) := by
  intro fed
  rw [feedStart] at fed
  split at fed
  · cases fed
  · split at fed
    · split at fed <;> cases fed
    · split at fed
      · cases fed
      · split at fed
        · exact extend_ne_complete fed
        · split at fed <;> cases fed

theorem feedEscape_ne_complete : n.feedEscape o b ≠ .ok (m, .complete) := by
  intro fed
  rw [feedEscape] at fed
  split at fed
  · cases fed
  · exact extend_ne_complete fed

theorem feedNameEnd_ne_complete : n.feedNameEnd o b ≠ .ok (m, .complete) := by
  intro fed
  rw [feedNameEnd] at fed
  split at fed
  · cases fed
  · split at fed <;> cases fed

/-- An object does not end with a name. -/
theorem afterName_ne_complete {x : Except Fault (Branch × Status)} : x.map n.afterName ≠ .ok (m, .complete) := by
  rcases x with fault | ⟨child, _ | _⟩ <;> exact nofun

/-- A string ends with a quote only. -/
theorem feedString_ne_complete (notQuote : b ≠ Byte.quote) : n.feedString o b ≠ .ok (m, .complete) := by
  intro fed
  rw [feedString, if_neg notQuote] at fed
  split at fed
  · cases fed
  · exact extend_ne_complete fed

/-! ## Rules that may end the value -/

/-- A container ends by its bracket, and by nothing else that follows a child. -/
theorem ended_of_feedAfterChild (fed : n.feedAfterChild c o b = .ok (m, .complete)) : n.Ended m := by
  rw [feedAfterChild] at fed
  split at fed
  · cases fed
  · split at fed
    · cases fed
    · split at fed
      · cases fed
        exact .of_complete n
      · split at fed <;> cases fed

/-- A container ends together with its child only if that is a number, for then it has the byte as well. -/
theorem ended_of_afterValue {x : Except Fault (Branch × Status)}
    (fed : x.bind (n.afterValue c o b) = .ok (m, .complete)) : n.Ended m := by
  rcases x with fault | ⟨child, _ | _⟩
  · cases fed
  · cases fed
  · simp only [Except.bind, afterValue] at fed
    split at fed
    · have ended := ended_of_feedAfterChild fed
      exact ⟨ended.kind, ended.stage⟩
    · cases fed

theorem ended_of_feedElement (fed : n.feedElement o depth b = .ok (m, .complete)) : n.Ended m := by
  rw [feedElement] at fed
  split at fed
  · cases fed
  · split at fed
    · cases fed
      exact .of_complete n
    · split at fed
      · cases fed
      · exact ended_of_afterValue fed

theorem ended_of_feedName (fed : n.feedName o depth b = .ok (m, .complete)) : n.Ended m := by
  rw [feedName] at fed
  split at fed
  · cases fed
  · split at fed
    · cases began : fresh.feedStart o (depth + 1) b with
      | error fault =>
          rw [began] at fed
          cases fed
      | ok result =>
          rw [began] at fed
          cases fed
    · split at fed
      · cases fed
        exact .of_complete n
      · split at fed <;> cases fed

theorem ended_of_feedMember (fed : n.feedMember o depth b = .ok (m, .complete)) : n.Ended m := by
  rw [feedMember] at fed
  split at fed
  · cases fed
  · exact ended_of_afterValue fed

theorem ended_of_feedNumber (fed : n.feedNumber o b = .ok (m, .complete)) : n.Ended m := by
  rw [feedNumber] at fed
  split at fed
  · exact absurd fed extend_ne_complete
  · split at fed
    · split at fed
      · cases fed
        exact ⟨rfl, rfl⟩
      · cases fed
    · cases fed

theorem ended_of_feedString (fed : n.feedString o b = .ok (m, .complete)) : n.Ended m := by
  by_cases quote : b = Byte.quote
  · rw [feedString, if_pos quote] at fed
    cases fed
    exact ⟨rfl, rfl⟩
  · exact absurd fed (feedString_ne_complete quote)

theorem ended_of_feedKeyword {word : Keyword} (fed : n.feedKeyword word b = .ok (m, .complete)) : n.Ended m := by
  simp only [feedKeyword] at fed
  split at fed
  · split at fed
    · cases fed
      exact ⟨rfl, rfl⟩
    · cases fed
  · cases fed

theorem ended_of_feedDone (done : n.stage = none) (fed : n.feedDone o b = .ok (m, .complete)) : n.Ended m := by
  rw [feedDone] at fed
  split at fed
  · cases fed
    exact ⟨rfl, done⟩
  · cases fed

/-! ## Any value -/

/-- Whatever value ends, it keeps its kind and waits for nothing. -/
theorem ended_of_advance (fed : n.advance o b depth = .ok (m, .complete)) : n.Ended m := by
  rcases n with ⟨kind, number, text, name, children, stage, token, active⟩
  cases stage with
  | none =>
      exact ended_of_feedDone rfl fed
  | some stage =>
      cases stage with
      | start =>
          exact absurd fed feedStart_ne_complete
      | keyword word =>
          exact ended_of_feedKeyword fed
      | number =>
          exact ended_of_feedNumber fed
      | string =>
          exact ended_of_feedString fed
      | escape =>
          exact absurd fed feedEscape_ne_complete
      | element =>
          cases active with
          | none =>
              exact ended_of_feedElement fed
          | some child =>
              exact ended_of_afterValue fed
      | elementEnd | memberEnd =>
          exact ended_of_feedAfterChild fed
      | name =>
          cases active with
          | none =>
              exact ended_of_feedName fed
          | some child =>
              exact absurd fed afterName_ne_complete
      | nameEnd =>
          exact absurd fed feedNameEnd_ne_complete
      | member =>
          cases active with
          | none =>
              exact ended_of_feedMember fed
          | some child =>
              exact ended_of_afterValue fed

end JsonStream.Branch
