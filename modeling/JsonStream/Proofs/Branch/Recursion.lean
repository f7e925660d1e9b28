import JsonStream.Branch.Recursion
import JsonStream.Proofs.Branch.Calls

/-!
# Calls come to an end

A value calls for the child in progress, for a child that begins, or once more for itself. Neither of the last two
calls leads to another: a child that begins is at its start, and a value that calls for itself has just come to
stand after a child. So calls come to an end for every value, and there are no more of them inside one another than
values on the chain and one. Carried out they come to what `Branch.advance` says, and are those that `Branch.trace`
records.

- `orderly_rule` — the calls of one rule
- `wellFounded_follows` — there is no endless row of calls
- `rule_alone`, `rule_active`, `rule_idle`, `rule_passive` — the rules beside those of `Branch.advance`
- `Handed`, `exists_performed` — how calls are made, and what they come to
-/

namespace JsonStream.Branch

variable {o : Options} {b : UInt8} {n child : Branch} {c : Container} {depth frames : Nat}
  {r : Request} {log called : Logged} {e : Entry} {entries : List Entry}

/-! ## One rule -/

/-- After the answer for a child, a container calls for itself if the child is a number that has ended. -/
theorem resumes_afterValueRule (c : Container) (answer : Branch × Status) :
    n.Resumes o b depth answer (n.afterValueRule c depth answer) := by
  rcases answer with ⟨child, status⟩
  cases status with
  | pending =>
      exact .done _
  | complete =>
      by_cases number : child.kind = some .number
      · rw [afterValueRule, if_pos number]
        refine .again number rfl ?_ ?_
        · cases c
          · exact .inl rfl
          · exact .inr rfl
        · cases c <;> exact ⟨_, rfl⟩
      · rw [afterValueRule, if_neg number]
        exact .done _

/-- The rule of a container that waits for a value is orderly. -/
theorem orderly_valueRule (c : Container) : n.Orderly o b depth (n.valueRule c o b depth) := by
  rw [valueRule]
  split
  · rename_i child active
    exact .call (.current active) (resumes_afterValueRule c)
  · rename_i idle
    split
    · exact .done _
    · split
      · exact .done _
      · split
        · exact .done _
        · exact .call (.begun idle) (resumes_afterValueRule c)

/-- The rule of an object that waits for a name is orderly. -/
theorem orderly_nameRule : n.Orderly o b depth (n.nameRule o b depth) := by
  rw [nameRule]
  split
  · rename_i child active
    exact .call (.current active) fun answer => .done _
  · rename_i idle
    split
    · exact .done _
    · split
      · exact .call (.begun idle) fun answer => .done _
      · split
        · exact .done _
        · split <;> exact .done _

/-- The rule of any value at all. -/
theorem orderly_rule (n : Branch) (o : Options) (b : UInt8) (depth : Nat) :
    n.Orderly o b depth (n.rule o b depth) := by
  rw [rule]
  split
  case h_6 =>
    exact orderly_valueRule .array
  case h_8 =>
    exact orderly_nameRule
  case h_10 =>
    exact orderly_valueRule .object
  all_goals exact .done _

/-- A value that is called for after a child makes no call. -/
theorem Resumes.alone_of_calls {answer : Branch × Status} {rule : Rule} (resumes : n.Resumes o b depth answer rule)
    (calls : rule.Calls r) : ∃ outcome, r.value.rule o b r.depth = .done outcome := by
  cases resumes with
  | done outcome =>
      cases calls
  | again kind closed_eq settled alone =>
      cases calls with
      | now =>
          exact alone
      | later answer calls =>
          cases calls

/-- The calls that an orderly rule can make. -/
theorem Orderly.target_of_calls {rule : Rule} (orderly : n.Orderly o b depth rule) (calls : rule.Calls r) :
    n.ForChild depth r ∨ ∃ outcome, r.value.rule o b r.depth = .done outcome := by
  cases orderly with
  | done outcome =>
      cases calls
  | call target after =>
      cases calls with
      | now =>
          exact .inl target
      | later answer calls =>
          exact .inr ((after answer).alone_of_calls calls)

/-! ## No endless row of calls -/

/-- A rule without calls is where the calls come to an end. -/
theorem acc_of_done {outcome : Except Fault (Branch × Status)} (done : r.value.rule o b r.depth = .done outcome) :
    Acc (Request.Follows o b) r := by
  constructor
  intro inner follows
  rw [Request.Follows, done] at follows
  cases follows

/-- A value of which nothing has come makes no calls. -/
theorem rule_fresh (depth : Nat) : fresh.rule o b depth = .done (fresh.feedStart o depth b) :=
  rfl

/-- Every call for a value comes to an end, since it is passed on at most to the child in progress. -/
theorem acc_follows : (n : Branch) → ∀ r : Request, r.value = n → Acc (Request.Follows o b) r
  | ⟨kind, number, text, name, children, stage, token, active⟩ => by
    intro r value
    constructor
    intro inner follows
    rcases (orderly_rule r.value o b r.depth).target_of_calls follows with target | ⟨outcome, done⟩
    · cases target with
      | begun idle =>
          exact acc_of_done (rule_fresh _)
      | @current child isActive =>
          rw [value] at isActive
          cases active with
          | none =>
              cases isActive
          | some current =>
              have child_eq : child = current := (Option.some.inj isActive).symm
              exact acc_follows current _ child_eq
    · exact acc_of_done done

/-- There is no endless chain of calls, under any answers at all. A call for a child goes one value further in,
and a call of a value for itself finds it at a stage where it makes none. -/
theorem wellFounded_follows (o : Options) (b : UInt8) : WellFounded (Request.Follows o b) :=
  ⟨fun r => acc_follows r.value r rfl⟩

/-! ## The rules beside `advance` -/

/-- What a container does once the call for its child is answered: it goes on in progress, or has a number more and
calls for itself. -/
inductive GoesOn (n : Branch) (c : Container) (o : Options) (b : UInt8) (depth : Nat) :
    Branch × Status → Rule → Prop
  | pending {answer : Branch × Status} {m : Branch}
    (traced : n.afterChildTrace c o b depth answer = .quiet (.ok (m, .pending))) :
    GoesOn n c o b depth answer (.done (.ok (m, .pending)))
  | again {number closed : Branch} (kind : number.kind = some .number)
    (closed_eq : closed = n.closeChild number c.afterChild)
    (traced : n.afterChildTrace c o b depth (number, .complete) =
      callAlone o b { depth, nesting := 1, value := closed }) :
    GoesOn n c o b depth (number, .complete) (.call (.itself closed depth) fun result => .done (.ok result))

theorem GoesOn.of_pending {following : Rule} (goesOn : n.GoesOn c o b depth (child, .pending) following) :
    ∃ m, following = .done (.ok (m, .pending)) ∧
      n.afterChildTrace c o b depth (child, .pending) = .quiet (.ok (m, .pending)) := by
  cases goesOn with
  | pending traced =>
      exact ⟨_, rfl, traced⟩

/-- The answer for a value taken by a container. -/
theorem goesOn_afterValueRule (notName : n.stage ≠ some .name) (c : Container) (answer : Branch × Status) :
    n.GoesOn c o b depth answer (n.afterValueRule c depth answer) := by
  rcases answer with ⟨child, status⟩
  have traced : n.afterChildTrace c o b depth (child, status) = n.afterValueTrace c o b depth (child, status) :=
    if_neg notName
  cases status with
  | pending =>
      exact .pending traced
  | complete =>
      by_cases number : child.kind = some .number
      · rw [afterValueRule, if_pos number]
        exact .again number rfl (traced.trans (if_pos number))
      · rw [afterValueRule, if_neg number]
        exact .pending (traced.trans (if_neg number))

/-- The answer for a name taken by an object. -/
theorem goesOn_afterName (name : n.stage = some .name) (c : Container) (answer : Branch × Status) :
    n.GoesOn c o b depth answer (.done (.ok (n.afterName answer))) := by
  have traced : n.afterChildTrace c o b depth answer = .quiet (.ok (n.afterName answer)) := if_pos name
  rcases answer with ⟨child, status⟩
  cases status <;> exact .pending traced

/-- At a stage where no child comes a value makes no calls, and its rule is what `advance` does. -/
theorem rule_alone (waits : childOf? n.stage = none) : n.rule o b depth = .done (n.advance o b depth) := by
  rcases n with ⟨kind, number, text, name, children, stage, token, active⟩
  cases stage with
  | none =>
      rfl
  | some stage =>
      cases stage with
      | element | name | member =>
          cases waits
      | _ =>
          rfl

theorem rule_element (stage : n.stage = some .element) : n.rule o b depth = n.valueRule .array o b depth := by
  rw [rule, stage]

theorem rule_name (stage : n.stage = some .name) : n.rule o b depth = n.nameRule o b depth := by
  rw [rule, stage]

theorem rule_member (stage : n.stage = some .member) : n.rule o b depth = n.valueRule .object o b depth := by
  rw [rule, stage]

/-- The three stages at which bytes go to a child. -/
theorem stage_of_waits (waits : childOf? n.stage = some c) :
    (n.stage = some .element ∧ c = .array) ∨ (n.stage = some .name ∧ c = .object) ∨
      (n.stage = some .member ∧ c = .object) := by
  rcases n with ⟨kind, number, text, name, children, stage, token, active⟩
  cases stage with
  | none =>
      cases waits
  | some stage =>
      cases stage <;> cases waits
      · exact .inl ⟨rfl, rfl⟩
      · exact .inr (.inl ⟨rfl, rfl⟩)
      · exact .inr (.inr ⟨rfl, rfl⟩)

/-- A container with a child in progress hands it the byte, and goes on with the answer. -/
theorem rule_active (depth : Nat) (waits : childOf? n.stage = some c) (active : n.active = some child) :
    ∃ next, n.rule o b depth = .call (.child n .current child depth) next ∧
      ∀ answer, n.GoesOn c o b depth answer (next answer) := by
  rcases stage_of_waits waits with ⟨stage, rfl⟩ | ⟨stage, rfl⟩ | ⟨stage, rfl⟩
  · refine ⟨_, ?_, goesOn_afterValueRule (by simp [stage]) .array⟩
    rw [rule_element stage]
    simp only [valueRule, active]
  · refine ⟨_, ?_, goesOn_afterName stage .object⟩
    rw [rule_name stage]
    simp only [nameRule, active]
  · refine ⟨_, ?_, goesOn_afterValueRule (by simp [stage]) .object⟩
    rw [rule_member stage]
    simp only [valueRule, active]

/-- A container in which the byte begins a child hands it to a new one. -/
theorem rule_idle (depth : Nat) (waits : childOf? n.stage = some c) (idle : n.active = none)
    (begins : n.beginsChild o b = true) :
    ∃ next, n.rule o b depth = .call (.child n .begun fresh depth) next ∧
      ∀ child, n.GoesOn c o b depth (child, .pending) (next (child, .pending)) := by
  rw [beginsChild, Bool.and_eq_true, Bool.not_eq_true'] at begins
  rcases begins with ⟨notSpace, begins⟩
  rcases stage_of_waits waits with ⟨stage, rfl⟩ | ⟨stage, rfl⟩ | ⟨stage, rfl⟩
  · simp only [stage, Bool.and_eq_true, Bool.not_eq_true', Bool.and_eq_false_iff, beq_eq_false_iff_ne,
      bne_iff_ne] at begins
    rcases begins with ⟨notEnd, notOther⟩
    have notClose : ¬ (b = Byte.closeBracket ∧ n.children.isEmpty = true) := by
      rintro ⟨rfl, empty⟩
      simp [empty] at notEnd
    refine ⟨_, ?_, fun child => goesOn_afterValueRule (by simp [stage]) .array _⟩
    rw [rule_element stage]
    simp only [valueRule, idle, notSpace, Bool.false_eq_true, if_false, true_and, if_neg notClose, notOther]
  · have quote : b = Byte.quote := by simpa [stage] using begins
    refine ⟨fun result => .done (.ok ({ n with active := some result.1 }, .pending)), ?_,
      fun child => goesOn_afterName stage .object (child, .pending)⟩
    rw [rule_name stage]
    simp only [nameRule, idle, notSpace, Bool.false_eq_true, if_false, if_pos quote]
  · refine ⟨_, ?_, fun child => goesOn_afterValueRule (by simp [stage]) .object _⟩
    rw [rule_member stage]
    simp only [valueRule, idle, notSpace, Bool.false_eq_true, if_false, reduceCtorEq, false_and]

theorem advance_element (stage : n.stage = some .element) (idle : n.active = none) :
    n.advance o b depth = n.feedElement o depth b := by
  rcases n with ⟨kind, number, text, name, children, _, token, active⟩
  subst stage idle
  rfl

theorem advance_name (stage : n.stage = some .name) (idle : n.active = none) :
    n.advance o b depth = n.feedName o depth b := by
  rcases n with ⟨kind, number, text, name, children, _, token, active⟩
  subst stage idle
  rfl

theorem advance_member (stage : n.stage = some .member) (idle : n.active = none) :
    n.advance o b depth = n.feedMember o depth b := by
  rcases n with ⟨kind, number, text, name, children, _, token, active⟩
  subst stage idle
  rfl

/-- No child begins, and the rule for the stage is that of `advance`. -/
theorem rule_passive (waits : childOf? n.stage = some c) (idle : n.active = none)
    (passive : ¬ n.beginsChild o b = true) : n.rule o b depth = .done (n.advance o b depth) := by
  rw [beginsChild] at passive
  rcases stage_of_waits waits with ⟨stage, rfl⟩ | ⟨stage, rfl⟩ | ⟨stage, rfl⟩
  · rw [rule_element stage, advance_element stage idle, valueRule, feedElement]
    by_cases space : o.isSpace b = true
    · simp only [idle, if_pos space]
    · by_cases close : b = Byte.closeBracket ∧ n.children.isEmpty = true
      · simp only [idle, true_and, if_neg space, if_pos close]
      · by_cases other : b = Byte.closeBrace
        · simp only [idle, true_and, if_neg space, if_neg close, if_pos other]
        · have begins : b = Byte.closeBracket → n.children ≠ [] := by simpa using close
          simp [stage, space, other, imp_iff_not_or.1 begins] at passive
  · rw [rule_name stage, advance_name stage idle, nameRule, feedName]
    by_cases space : o.isSpace b = true
    · simp only [idle, if_pos space]
    · have notQuote : b ≠ Byte.quote := by
        rintro rfl
        simp [stage, space] at passive
      simp only [idle, if_neg space, if_neg notQuote]
      split
      · rfl
      · split <;> rfl
  · have space : o.isSpace b = true := by simpa [stage] using passive
    rw [rule_member stage, advance_member stage idle, valueRule, feedMember]
    simp only [idle, if_pos space]

/-! ## Making calls -/

/-- A rule without calls is carried out within one frame. -/
theorem perform_of_done {outcome : Except Fault (Branch × Status)} (frames : Nat)
    (done : r.value.rule o b r.depth = .done outcome) :
    r.perform o b (frames + 1) = some ⟨[⟨r, outcome⟩], outcome⟩ := by
  rw [Request.perform, done]
  rfl

/-- A rule that can be carried out within so many frames makes a call that needs one frame more. -/
theorem perform_of_rule {outcome : Except Fault (Branch × Status)}
    (made : (r.value.rule o b r.depth).perform (Request.perform o b frames) = some ⟨entries, outcome⟩) :
    r.perform o b (frames + 1) = some ⟨⟨r, outcome⟩ :: entries.map (Entry.inside r), outcome⟩ := by
  rw [Request.perform, made]
  rfl

section

variable {make : Request → Option Logged} {q s : Request} {next : Branch × Status → Rule} {answer : Branch × Status}
  {outcome : Except Fault (Branch × Status)} {last : Logged}

variable (made : make q = some called)

include made

/-- A byte refused by a child is refused, and the rule does not go on. -/
theorem Rule.perform_of_refused {fault : Fault} (refused : called.outcome = .error fault) :
    (Rule.call q next).perform make = some ⟨called.entries, .error fault⟩ := by
  simp only [perform, made, Option.bind_some, refused]

/-- A byte answered by a child, after which the rule is done. -/
theorem Rule.perform_of_answered (answered : called.outcome = .ok answer) (done : next answer = .done outcome) :
    (Rule.call q next).perform make = some ⟨called.entries, outcome⟩ := by
  simp only [perform, made, Option.bind_some, answered, done, Option.map_some, List.append_nil]

/-- A byte answered by a child, after which the value is called once more. -/
theorem Rule.perform_of_again (answered : called.outcome = .ok answer)
    (again : next answer = .call s fun result => .done (.ok result)) (second : make s = some last) :
    (Rule.call q next).perform make = some ⟨called.entries ++ last.entries, last.outcome⟩ := by
  simp only [perform, made, Option.bind_some, answered, again, second]
  cases last.outcome with
  | error fault =>
      rfl
  | ok result =>
      simp only [Option.map_some, List.append_nil]

end

/-! ## Calls of a value and of those inside it -/

/-- How a call is made. The value has the byte itself, or a child begins with it, or the child in progress has it; in
the last case the value may be called again, and then the child is a number that has ended. -/
inductive Handed (o : Options) (b : UInt8) : Request → Logged → Prop
  | alone {r : Request} (outcome : Except Fault (Branch × Status)) : Handed o b r ⟨[⟨r, outcome⟩], outcome⟩
  | begun {r : Request} {outcome : Except Fault (Branch × Status)} (first : Except Fault (Branch × Status))
    (pending : ∀ m, outcome ≠ .ok (m, .complete)) :
    Handed o b r ⟨[⟨r, outcome⟩, Entry.inside r ⟨.child r.value .begun fresh r.depth, first⟩], outcome⟩
  | current {r : Request} {child : Branch} {called : Logged} {outcome : Except Fault (Branch × Status)}
    (active : r.value.active = some child) (handed : Handed o b (.child r.value .current child r.depth) called)
    (pending : ∀ m, outcome ≠ .ok (m, .complete)) :
    Handed o b r ⟨⟨r, outcome⟩ :: called.entries.map (Entry.inside r), outcome⟩
  | again {r : Request} {child number : Branch} {c : Container} {called : Logged}
    (waits : childOf? r.value.stage = some c) (active : r.value.active = some child)
    (handed : Handed o b (.child r.value .current child r.depth) called)
    (ended : called.outcome = .ok (number, .complete)) (kind : number.kind = some .number)
    {outcome : Except Fault (Branch × Status)}
    (outcome_eq : outcome = (r.value.closeChild number c.afterChild).feedAfterChild c o b) :
    Handed o b r ⟨⟨r, outcome⟩ :: List.map (Entry.inside r) (called.entries ++
      [⟨.itself (r.value.closeChild number c.afterChild) r.depth, outcome⟩]), outcome⟩

def Call.under (outer call : Call) : Call :=
  { call with path := outer.path ++ call.path, nesting := outer.nesting + call.nesting }

structure Performed (o : Options) (b : UInt8) (r : Request) (log : Logged) : Prop where
  outcome : log.outcome = r.value.advance o b r.depth
  calls : log.entries.map (fun e => e.toCall) = (r.value.trace o b r.depth).entries.map (Call.under r.toCall)
  handed : Handed o b r log

theorem Call.under_here (r : Request) : Call.under r.toCall { depth := r.depth, value := r.value } = r.toCall := by
  rw [under, List.append_nil]
  rfl

theorem map_toCall_inside (r : Request) (entries : List Entry) :
    (entries.map (Entry.inside r)).map (fun e => e.toCall) =
      (entries.map fun e => e.toCall).map (Call.under r.toCall) := by
  rw [List.map_map, List.map_map]
  rfl

/-- The calls made for a child are those that the child's trace records, counted from the container. -/
theorem Performed.calls_child {reason : Reason}
    (performed : Performed o b (.child n reason child depth) called) :
    called.entries.map (fun e => e.toCall) = ((child.trace o b (depth + 1)).inside n.children.length).entries := by
  have same : Call.under (Request.child n reason child depth).toCall = Call.inside n.children.length := by
    funext call
    rw [Call.under, Call.inside, Nat.add_comm call.nesting]
    rfl
  rw [performed.calls, same]
  rfl

/-- The calls made for a document are those of the trace, in their order. -/
theorem Performed.calls_document {reason : Reason} (performed : Performed o b (.document n reason) called) :
    called.entries.map (fun e => e.toCall) = (n.trace o b 0).entries := by
  have same : Call.under (Request.document n reason).toCall = id := by
    funext call
    rw [Call.under, Request.document, Nat.zero_add]
    rfl
  rw [performed.calls, same, List.map_id]
  rfl

theorem length_chain_pos : (n : Branch) → 0 < n.chain.length
  | ⟨_, _, _, _, _, _, _, none⟩ => Nat.one_pos
  | ⟨_, _, _, _, _, _, _, some _⟩ => Nat.succ_pos _

/-- A container to which a child has just been added makes no calls. -/
theorem rule_closeChild (n number : Branch) (c : Container) :
    (n.closeChild number c.afterChild).rule o b depth =
      .done ((n.closeChild number c.afterChild).feedAfterChild c o b) := by
  cases c <;> rfl

theorem advance_closeChild (n number : Branch) (c : Container) :
    (n.closeChild number c.afterChild).advance o b depth =
      (n.closeChild number c.afterChild).feedAfterChild c o b := by
  cases c <;> rfl

/-- A value without a call of its own. -/
theorem performed_alone {outcome : Except Fault (Branch × Status)}
    (trace_eq : r.value.trace o b r.depth = .calling { depth := r.depth, value := r.value } (.quiet outcome)) :
    Performed o b r ⟨[⟨r, outcome⟩], outcome⟩ where
  outcome := by
    rw [← outcome_trace, trace_eq]
    rfl
  calls := by
    rw [trace_eq]
    exact congrArg (fun call => [call]) (Call.under_here r).symm
  handed := .alone outcome

/-- A child that begins has the byte itself. -/
theorem performed_begun (n : Branch) (depth : Nat) :
    Performed o b (.child n .begun fresh depth)
      ⟨[⟨.child n .begun fresh depth, fresh.feedStart o (depth + 1) b⟩], fresh.feedStart o (depth + 1) b⟩ :=
  performed_alone (trace_alone rfl)

/-- A value with calls for it, which are those of its trace. -/
theorem performed_of_trace {calls : List Call} {outcome : Except Fault (Branch × Status)}
    (trace_eq : r.value.trace o b r.depth = .calling { depth := r.depth, value := r.value } ⟨calls, outcome⟩)
    (made : entries.map (fun e => e.toCall) = calls)
    (handed : Handed o b r ⟨⟨r, outcome⟩ :: entries.map (Entry.inside r), outcome⟩) :
    Performed o b r ⟨⟨r, outcome⟩ :: entries.map (Entry.inside r), outcome⟩ where
  outcome := by
    rw [← outcome_trace, trace_eq]
    rfl
  calls := by
    rw [trace_eq, List.map_cons, map_toCall_inside, made, Traced.calling, List.map_cons, Call.under_here]
  handed := handed

section

variable {reason : Reason} {next : Branch × Status → Rule} {answer : Branch × Status}

variable
  (rule_eq : r.value.rule o b r.depth = .call (.child r.value reason child r.depth) next)
  (trace_eq : r.value.trace o b r.depth = .calling { depth := r.depth, value := r.value }
    (((child.trace o b (r.depth + 1)).inside r.value.children.length).bind (r.value.afterChildTrace c o b r.depth)))
  (made : Request.perform o b frames (.child r.value reason child r.depth) = some called)
  (performed : Performed o b (.child r.value reason child r.depth) called)

include performed in
theorem Performed.outcome_inside :
    ((child.trace o b (r.depth + 1)).inside r.value.children.length).outcome = called.outcome :=
  (outcome_trace _ _).trans performed.outcome.symm

include rule_eq trace_eq made performed

/-- The byte is refused in the call for the child. -/
theorem exists_performed_of_refused {fault : Fault} (refused : called.outcome = .error fault)
    (handed : Handed o b r ⟨⟨r, .error fault⟩ :: called.entries.map (Entry.inside r), .error fault⟩) :
    ∃ log, r.perform o b (frames + 1) = some log ∧ Performed o b r log := by
  have run := perform_of_rule (rule_eq ▸ Rule.perform_of_refused made refused)
  refine ⟨_, run, performed_of_trace ?_ performed.calls_child handed⟩
  rw [trace_eq, Traced.bind_of_error (performed.outcome_inside.trans refused)]

/-- The value is in progress after the call for the child. -/
theorem exists_performed_of_pending {m : Branch} (answered : called.outcome = .ok answer)
    (traced : r.value.afterChildTrace c o b r.depth answer = .quiet (.ok (m, .pending)))
    (done : next answer = .done (.ok (m, .pending)))
    (handed : Handed o b r ⟨⟨r, .ok (m, .pending)⟩ :: called.entries.map (Entry.inside r), .ok (m, .pending)⟩) :
    ∃ log, r.perform o b (frames + 1) = some log ∧ Performed o b r log := by
  have run := perform_of_rule (rule_eq ▸ Rule.perform_of_answered made answered done)
  refine ⟨_, run, performed_of_trace ?_ performed.calls_child handed⟩
  rw [trace_eq, Traced.bind_of_ok (performed.outcome_inside.trans answered), traced]
  exact congrArg (fun calls => Traced.calling _ ⟨calls, _⟩) (List.append_nil _)

/-- The child is a number that the byte has ended, and the value has the byte in a call of its own. -/
theorem exists_performed_of_again {number closed : Branch} (room : 0 < frames)
    (closed_eq : closed = r.value.closeChild number c.afterChild)
    (answered : called.outcome = .ok (number, .complete))
    (traced : r.value.afterChildTrace c o b r.depth (number, .complete) =
      callAlone o b { depth := r.depth, nesting := 1, value := closed })
    (again : next (number, .complete) = .call (.itself closed r.depth) fun result => .done (.ok result))
    (handed : Handed o b r ⟨⟨r, closed.feedAfterChild c o b⟩ :: List.map (Entry.inside r)
      (called.entries ++ [⟨.itself closed r.depth, closed.feedAfterChild c o b⟩]), closed.feedAfterChild c o b⟩) :
    ∃ log, r.perform o b (frames + 1) = some log ∧ Performed o b r log := by
  subst closed_eq
  obtain ⟨fewer, rfl⟩ := Nat.exists_eq_succ_of_ne_zero room.ne'
  have second : Request.perform o b (fewer + 1) (.itself (r.value.closeChild number c.afterChild) r.depth) = _ :=
    perform_of_done fewer (rule_closeChild r.value number c)
  have run := perform_of_rule (rule_eq ▸ Rule.perform_of_again made answered again second)
  refine ⟨_, run, performed_of_trace ?_ rfl handed⟩
  rw [trace_eq, Traced.bind_of_ok (performed.outcome_inside.trans answered), traced, List.map_append,
    performed.calls_child]
  simp only [callAlone, advance_closeChild]
  rfl

end

/-- A child begins with the byte. -/
theorem exists_performed_idle (waits : childOf? r.value.stage = some c) (idle : r.value.active = none)
    (begins : r.value.beginsChild o b = true) (frames : Nat) :
    ∃ log, r.perform o b (frames + 2) = some log ∧ Performed o b r log := by
  rcases rule_idle r.depth waits idle begins with ⟨next, rule_eq, goesOn⟩
  have trace_eq : r.value.trace o b r.depth = _ := trace_idle waits idle
  rw [if_pos begins] at trace_eq
  have made : Request.perform o b (frames + 1) (.child r.value .begun fresh r.depth) = _ :=
    perform_of_done frames (rule_fresh _)
  have performed := performed_begun (o := o) (b := b) r.value r.depth
  cases began : fresh.feedStart o (r.depth + 1) b with
  | error fault =>
      refine exists_performed_of_refused rule_eq trace_eq made performed began ?_
      exact .begun _ nofun
  | ok answer =>
      rcases answer with ⟨child, status⟩
      obtain rfl : status = .pending := status_of_feedStart began
      rcases (goesOn child).of_pending with ⟨m, done, traced⟩
      refine exists_performed_of_pending rule_eq trace_eq made performed began traced done ?_
      exact .begun _ nofun

/-- A call is carried out if one more may be going on than there are values on the chain. -/
theorem exists_performed (enough : r.value.chain.length < frames) :
    ∃ log, r.perform o b frames = some log ∧ Performed o b r log := by
  induction frames generalizing r with
  | zero =>
      exact absurd enough (Nat.not_lt_zero _)
  | succ frames ih =>
      -- A call for a child that begins, and one for the value itself, need a frame of their own.
      have room : 0 < frames := by
        have := r.value.length_chain_pos
        omega
      cases waits : childOf? r.value.stage with
      | none =>
          exact ⟨_, perform_of_done frames (rule_alone waits), performed_alone (trace_alone waits)⟩
      | some c =>
          cases active : r.value.active with
          | none =>
              by_cases begins : r.value.beginsChild o b = true
              · obtain ⟨fewer, rfl⟩ := Nat.exists_eq_succ_of_ne_zero room.ne'
                exact exists_performed_idle waits active begins fewer
              · refine ⟨_, perform_of_done _ (rule_passive waits active begins), performed_alone ?_⟩
                rw [trace_idle waits active, if_neg begins]
          | some child =>
              rcases rule_active (o := o) (b := b) r.depth waits active with ⟨next, rule_eq, goesOn⟩
              have trace_eq : r.value.trace o b r.depth = _ := trace_active waits active
              have shorter : child.chain.length < frames := by
                rw [chain_of_active active, List.length_cons] at enough
                omega
              rcases ih (r := .child r.value .current child r.depth) shorter with ⟨called, made, performed⟩
              cases answered : called.outcome with
              | error fault =>
                  exact exists_performed_of_refused rule_eq trace_eq made performed answered
                    (.current active performed.handed nofun)
              | ok answer =>
                  have goes := goesOn answer
                  generalize next_eq : next answer = following at goes
                  cases goes with
                  | pending traced =>
                      exact exists_performed_of_pending rule_eq trace_eq made performed answered traced next_eq
                        (.current active performed.handed nofun)
                  | again kind closed_eq traced =>
                      exact exists_performed_of_again rule_eq trace_eq made performed room closed_eq answered traced
                        next_eq (closed_eq ▸ .again waits active performed.handed answered kind rfl)

end JsonStream.Branch
