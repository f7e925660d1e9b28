import JsonStream.Branch.Calls
import JsonStream.Proofs.Branch.Growth

/-!
# Where a byte is handed on

The calls for one byte go down the chain of values in progress. One more may go to a child that begins with the
byte, or to a container on the chain in which a number has ended. The depth that is told is everywhere the length
of the address, and that is the number of containers around if the tree is sound.

- `Branch.trace_alone`, `Branch.trace_active`, `Branch.trace_idle` — the calls of one value
- `Branch.outcome_feedTrace` — the record changes nothing
- `Branch.reaches_of_mem_calls` — the values that are called, and the depths that they are told
- `Branch.length_containersAround` — addresses and containers
-/

namespace JsonStream.Branch

variable {o : Options} {b : UInt8} {n p : Branch} {c : Container} {depth : Nat} {result : Branch × Status}
  {call : Call} {path : Path}

/-! ## One call -/

/-- A value whose stage is not for a child has the byte itself. -/
theorem trace_alone (waits : childOf? n.stage = none) :
    n.trace o b depth = callAlone o b { depth, value := n } := by
  rcases n with ⟨kind, number, text, name, children, stage, token, active⟩
  simp only [trace, show childOf? stage = none from waits]
  rfl

/-- A container with a child in progress calls for it, whatever the byte. -/
theorem trace_active {child : Branch} (waits : childOf? n.stage = some c) (active : n.active = some child) :
    n.trace o b depth = .calling { depth, value := n }
      (((child.trace o b (depth + 1)).inside n.children.length).bind (n.afterChildTrace c o b depth)) := by
  rcases n with ⟨kind, number, text, name, children, stage, token, active⟩
  subst active
  simp only [trace, show childOf? stage = some c from waits]

/-- A container without a child in progress calls for a new one, if the byte begins one. -/
theorem trace_idle (waits : childOf? n.stage = some c) (idle : n.active = none) :
    n.trace o b depth = .calling { depth, value := n }
      (if n.beginsChild o b then
        ((callAlone o b { depth := depth + 1, value := fresh }).inside n.children.length).bind
          (n.afterChildTrace c o b depth)
      else .quiet (n.advance o b depth)) := by
  rcases n with ⟨kind, number, text, name, children, stage, token, active⟩
  subst idle
  simp only [trace, show childOf? stage = some c from waits]

/-! ## The record changes nothing -/

/-- A value has not ended with its first byte. -/
theorem status_of_feedStart (begun : n.feedStart o depth b = .ok result) : result.2 = .pending := by
  unfold feedStart at begun
  split at begun
  · cases begun
    rfl
  · split at begun
    · split at begun
      · cases begun
      · cases begun
        rfl
    · split at begun
      · cases begun
        rfl
      · split at begun
        · cases extended : o.extend n.token b with
          | error fault =>
              rw [extended] at begun
              cases begun
          | ok token =>
              rw [extended] at begun
              cases begun
              rfl
        · split at begun
          · cases begun
            rfl
          · cases begun

theorem outcome_afterValueTrace :
    (n.afterValueTrace c o b depth result).outcome = n.afterValue c o b result := by
  rcases result with ⟨child, status⟩
  cases status with
  | pending =>
      rfl
  | complete =>
      rw [afterValueTrace, afterValue]
      -- The call for the container itself ends in the rule for what follows a child.
      split
      · cases c <;> rfl
      · rfl

theorem outcome_afterChildTrace (value : n.stage ≠ some .name) :
    (fun result => (n.afterChildTrace c o b depth result).outcome) = n.afterValue c o b := by
  funext result
  rw [afterChildTrace, if_neg value, outcome_afterValueTrace]

/-- A child that begins with the byte has it. -/
theorem advance_of_beginsChild (waits : childOf? n.stage = some c) (idle : n.active = none)
    (begins : n.beginsChild o b = true) :
    n.advance o b depth =
      (fresh.feedStart o (depth + 1) b).bind fun result => (n.afterChildTrace c o b depth result).outcome := by
  rcases n with ⟨kind, number, text, name, children, stage, token, active⟩
  subst idle
  rw [beginsChild, Bool.and_eq_true, Bool.not_eq_true'] at begins
  rcases begins with ⟨notSpace, begins⟩
  cases stage with
  | none =>
      cases waits
  | some stage =>
      cases stage with
      | element =>
          cases waits
          simp only [Bool.and_eq_true, Bool.not_eq_true', Bool.and_eq_false_iff, beq_eq_false_iff_ne,
            bne_iff_ne] at begins
          rcases begins with ⟨notEnd, notOther⟩
          have notClose : ¬ (b = Byte.closeBracket ∧ children.isEmpty = true) := by
            rintro ⟨rfl, empty⟩
            simp [empty] at notEnd
          change feedElement _ o depth b = _
          rw [feedElement, notSpace, if_neg Bool.false_ne_true, if_neg notClose, if_neg notOther]
          exact congrArg _ (outcome_afterChildTrace (by nofun)).symm
      | name =>
          cases waits
          have quote : b = Byte.quote := beq_iff_eq.1 begins
          change feedName _ o depth b = _
          rw [feedName, notSpace, if_neg Bool.false_ne_true, if_pos quote]
          -- The name has not ended, so it makes no difference that the object does not ask.
          cases begun : fresh.feedStart o (depth + 1) b with
          | error fault =>
              rfl
          | ok result =>
              rcases result with ⟨child, status⟩
              obtain rfl : status = .pending := status_of_feedStart begun
              rfl
      | member =>
          cases waits
          change feedMember _ o depth b = _
          rw [feedMember, notSpace, if_neg Bool.false_ne_true]
          exact congrArg _ (outcome_afterChildTrace (by nofun)).symm
      | _ =>
          cases waits

/-- A container whose child has the byte goes on with what becomes of the child. -/
theorem advance_active {child : Branch} (waits : childOf? n.stage = some c) (active : n.active = some child) :
    n.advance o b depth =
      (child.advance o b (depth + 1)).bind fun result => (n.afterChildTrace c o b depth result).outcome := by
  rcases n with ⟨kind, number, text, name, children, stage, token, active⟩
  subst active
  cases stage with
  | none =>
      cases waits
  | some stage =>
      cases stage with
      | name =>
          rw [advance]
          cases child.advance o b (depth + 1) <;> rfl
      | element =>
          cases waits
          exact congrArg _ (outcome_afterChildTrace (by nofun)).symm
      | member =>
          cases waits
          exact congrArg _ (outcome_afterChildTrace (by nofun)).symm
      | _ =>
          cases waits

/-- The calls change nothing about what a byte comes to. The form of the value is gone down as by `advance`. -/
theorem outcome_trace : (depth : Nat) → (n : Branch) → (n.trace o b depth).outcome = n.advance o b depth
  | depth, ⟨kind, number, text, name, children, stage, token, active⟩ => by
    cases waits : childOf? stage with
    | none =>
        rw [trace_alone waits]
        rfl
    | some c =>
        cases active with
        | some child =>
            have inside := outcome_trace (depth + 1) child
            rw [trace_active waits rfl, advance_active waits rfl, ← inside]
            exact Traced.outcome_bind _ _
        | none =>
            rw [trace_idle waits rfl]
            by_cases begins : beginsChild ⟨kind, number, text, name, children, stage, token, none⟩ o b = true
            · rw [if_pos begins, advance_of_beginsChild waits rfl begins]
              exact Traced.outcome_bind _ _
            · rw [if_neg begins]
              rfl

/-- The record changes nothing. -/
theorem outcome_feedTrace : (n.feedTrace o b).outcome = n.feed o b := by
  rw [feedTrace, feed, Traced.outcome_bind, outcome_trace]
  refine congrArg _ (funext fun result => ?_)
  split
  · rfl
  · rfl

/-! ## Values that are called -/

/-- The chain goes on with that of the child in progress. -/
theorem chain_of_active {child : Branch} (active : n.active = some child) : n.chain = n :: child.chain := by
  rcases n with ⟨kind, number, text, name, children, stage, token, current⟩
  subst active
  rfl

theorem OnChain.here (n : Branch) : n.OnChain [] n := by
  refine ⟨rfl, ?_⟩
  rcases n with ⟨kind, number, text, name, children, stage, token, active⟩
  cases active <;> rfl

/-- A value on the chain of the child in progress is on the chain. -/
theorem OnChain.inside {child : Branch} (onChain : child.OnChain path p) (active : n.active = some child) :
    n.OnChain (n.children.length :: path) p where
  place := (at?_last (parts_of_active active) path).trans onChain.place
  chain := by
    rw [chain_of_active active, List.length_cons, List.getElem?_cons_succ]
    exact onChain.chain

/-- A call inside the child in progress. -/
theorem Reaches.inside {child : Branch} (reaches : child.Reaches call) (active : n.active = some child) :
    n.Reaches (call.inside n.children.length) := by
  cases reaches with
  | chain onChain nesting =>
      exact .chain (onChain.inside active) (congrArg (· + 1) nesting)
  | begun onChain waits idle path_eq value nesting =>
      exact .begun (onChain.inside active) waits idle (congrArg _ path_eq) value (congrArg (· + 1) nesting)
  | again onChain waits current kind value nesting =>
      exact .again (onChain.inside active) waits current kind value (congrArg (· + 1) nesting)

/-- After a child a container calls at most for itself, and only for a number that has ended. -/
theorem mem_calls_afterChildTrace (mem : call ∈ (n.afterChildTrace c o b depth result).entries) :
    result.2 = .complete ∧ result.1.kind = some .number ∧
      call = { depth, nesting := 1, value := n.closeChild result.1 c.afterChild } := by
  rcases result with ⟨child, status⟩
  rw [afterChildTrace] at mem
  split at mem
  · cases mem
  · cases status with
    | pending =>
        cases mem
    | complete =>
        rw [afterValueTrace] at mem
        split at mem
        · rename_i number
          exact ⟨rfl, number, List.mem_singleton.1 mem⟩
        · cases mem

/-- Calls go along the chain, and each tells the length of the address. -/
theorem reaches_of_mem_trace : (depth : Nat) → (n : Branch) → ∀ call ∈ (n.trace o b depth).entries,
    n.Reaches call ∧ call.depth = depth + call.path.length
  | depth, ⟨kind, number, text, name, children, stage, token, active⟩ => by
    intro call mem
    cases waits : childOf? stage with
    | none =>
        rw [trace_alone waits] at mem
        obtain rfl := List.mem_singleton.1 mem
        exact ⟨.chain (.here _) rfl, rfl⟩
    | some c =>
        cases active with
        | some child =>
            have inside := reaches_of_mem_trace (depth + 1) child
            rw [trace_active waits rfl] at mem
            rcases List.mem_cons.1 mem with rfl | mem
            · exact ⟨.chain (.here _) rfl, rfl⟩
            · rcases Traced.mem_entries_bind.1 mem with mem | ⟨result, -, mem⟩
              · rcases List.mem_map.1 mem with ⟨call, among, rfl⟩
                rcases inside call among with ⟨reaches, depth_eq⟩
                refine ⟨reaches.inside rfl, ?_⟩
                change call.depth = depth + (call.path.length + 1)
                omega
              · obtain ⟨-, kind, rfl⟩ := mem_calls_afterChildTrace mem
                exact ⟨.again (.here _) waits rfl kind rfl rfl, rfl⟩
        | none =>
            rw [trace_idle waits rfl] at mem
            rcases List.mem_cons.1 mem with rfl | mem
            · exact ⟨.chain (.here _) rfl, rfl⟩
            · split at mem
              · rcases Traced.mem_entries_bind.1 mem with mem | ⟨result, begun, mem⟩
                · obtain rfl := List.mem_singleton.1 mem
                  exact ⟨.begun (.here _) waits rfl rfl rfl rfl, rfl⟩
                · -- A child that begins has not ended, so the container is not called again.
                  have pending := status_of_feedStart begun
                  rw [(mem_calls_afterChildTrace mem).1] at pending
                  cases pending
              · cases mem

/-- Every call for a byte goes to a value on the chain, to a child that begins, or once more to a container or a
document because a number has ended. It tells the length of the address. -/
theorem reaches_of_mem_calls (mem : call ∈ n.calls o b) :
    (n.Reaches call ∨ n.EndsDocument call) ∧ call.depth = call.path.length := by
  rw [calls, feedTrace] at mem
  rcases Traced.mem_entries_bind.1 mem with mem | ⟨result, -, mem⟩
  · rcases reaches_of_mem_trace 0 n call mem with ⟨reaches, depth_eq⟩
    exact ⟨.inl reaches, depth_eq.trans (Nat.zero_add _)⟩
  · split at mem
    · rename_i ended
      obtain rfl := List.mem_singleton.1 mem
      exact ⟨.inr ⟨ended.2.1, ended.2.2, rfl, rfl⟩, rfl⟩
    · cases mem

/-- In `[1` a closing bracket ends the number, and then the array has it in a call of its own. -/
example : ((Tree.live [.array #[]] (.number #[0x31])).branch.calls {} Byte.closeBracket).map
      (fun call => (call.path, call.depth, call.nesting)) = [([], 0, 0), ([0], 1, 1), ([], 0, 1)] := by
  decide +kernel

/-! ## Addresses and containers -/

theorem at?_append (front back : Path) :
    n.at? (front ++ back) = (n.at? front).bind fun p => p.at? back := by
  induction front generalizing n with
  | nil =>
      rfl
  | cons i front ih =>
      rw [List.cons_append, at?_cons, at?_cons]
      cases n.parts[i]? with
      | none =>
          rfl
      | some child =>
          exact ih

/-- Only a container has parts. -/
theorem AllSound.exists_container (sound : n.AllSound) (mem : p ∈ n.parts) : ∃ c, n.container? = some c := by
  have inhabited : n.children ≠ [] ∨ n.active ≠ none := by
    rcases List.mem_append.1 mem with among | current
    · exact .inl (List.ne_nil_of_mem among)
    · refine .inr ?_
      rintro none
      rw [none] at current
      cases current
  rcases (sound n (.refl n)).container inhabited with ⟨c, kind⟩
  exact ⟨c, container?_eq_some_iff.2 kind⟩

theorem AllSound.of_mem_parts (sound : n.AllSound) (mem : p ∈ n.parts) : p.AllSound := by
  intro part inside
  rcases List.mem_append.1 mem with among | current
  · exact sound part (.child among inside)
  · exact sound part (.active (Option.mem_toList.1 current) inside)

/-- Soundness holds at every place. -/
theorem AllSound.at? (sound : n.AllSound) (place : n.at? path = some p) : p.AllSound := by
  induction path generalizing n with
  | nil =>
      cases place
      exact sound
  | cons i path ih =>
      rcases Option.bind_eq_some_iff.1 place with ⟨child, part, inside⟩
      exact ih (sound.of_mem_parts (List.mem_of_getElem? part)) inside

/-- A place inside a part has the container of that part around it. -/
theorem containersAround_cons {i : Nat} (container : n.container? = some c) (part : n.parts[i]? = some p)
    (path : Path) : n.containersAround (i :: path) = c :: p.containersAround path := by
  rw [containersAround, enclosing, part, List.filterMap_cons_some container]
  rfl

/-- In a sound value an address leads through a container at each step. -/
theorem length_containersAround (sound : n.AllSound) (place : n.at? path = some p) :
    (n.containersAround path).length = path.length := by
  induction path generalizing n with
  | nil =>
      rfl
  | cons i path ih =>
      rcases Option.bind_eq_some_iff.1 place with ⟨child, part, inside⟩
      have mem := List.mem_of_getElem? part
      rcases sound.exists_container mem with ⟨c, container⟩
      rw [containersAround_cons container part, List.length_cons, ih (sound.of_mem_parts mem) inside,
        List.length_cons]

/-- So does the address of a child that is to come in a container. -/
theorem length_containersAround_concat (sound : n.AllSound) (place : n.at? path = some p)
    (container : p.container? = some c) (i : Nat) :
    (n.containersAround (path ++ [i])).length = path.length + 1 := by
  induction path generalizing n with
  | nil =>
      cases place
      rw [List.nil_append, containersAround, enclosing, List.filterMap_cons_some container]
      cases p.parts[i]? <;> rfl
  | cons j path ih =>
      rcases Option.bind_eq_some_iff.1 place with ⟨child, part, inside⟩
      have mem := List.mem_of_getElem? part
      rcases sound.exists_container mem with ⟨d, outer⟩
      rw [List.cons_append, containersAround_cons outer part, List.length_cons,
        ih (sound.of_mem_parts mem) inside, List.length_cons]

end JsonStream.Branch
