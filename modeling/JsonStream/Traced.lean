import JsonStream.Fault

/-!
# Traces

A rule that ends with a result or a refusal, together with what was put down on the way. What has been put down
stays, whatever becomes of the rule.
-/

namespace JsonStream

variable {ι α β : Type}

/-- What a rule comes to, and what it has put down, in this order. -/
structure Traced (ι α : Type) where
  entries : List ι
  outcome : Except Fault α

namespace Traced

def quiet (outcome : Except Fault α) : Traced ι α :=
  ⟨[], outcome⟩

/-- One rule after another, unless the first ends with a refusal. -/
def bind (x : Traced ι α) (f : α → Traced ι β) : Traced ι β :=
  match x.outcome with
  | .error fault => ⟨x.entries, .error fault⟩
  | .ok a => ⟨x.entries ++ (f a).entries, (f a).outcome⟩

variable {x : Traced ι α} {f : α → Traced ι β}

/-- What comes of two rules in a row does not depend on what they put down. -/
theorem outcome_bind (x : Traced ι α) (f : α → Traced ι β) :
    (x.bind f).outcome = x.outcome.bind fun a => (f a).outcome := by
  rw [bind]
  cases x.outcome <;> rfl

/-- The second rule puts something down only if the first was not refused. -/
theorem mem_entries_bind {entry : ι} :
    entry ∈ (x.bind f).entries ↔ entry ∈ x.entries ∨ ∃ a, x.outcome = .ok a ∧ entry ∈ (f a).entries := by
  rw [bind]
  cases x.outcome with
  | error fault =>
      simp
  | ok a =>
      simp

theorem bind_of_error {fault : Fault} (refused : x.outcome = .error fault) :
    x.bind f = ⟨x.entries, .error fault⟩ := by
  rw [bind, refused]

theorem bind_of_ok {a : α} (answered : x.outcome = .ok a) :
    x.bind f = ⟨x.entries ++ (f a).entries, (f a).outcome⟩ := by
  rw [bind, answered]

/-- What comes after a rule adds nothing, if it puts nothing down whatever the rule has come to. -/
theorem entries_bind_of_quiet (silent : ∀ a, x.outcome = .ok a → (f a).entries = []) :
    (x.bind f).entries = x.entries := by
  cases answered : x.outcome with
  | error fault =>
      rw [bind_of_error answered]
  | ok a =>
      rw [bind_of_ok answered, silent a answered, List.append_nil]

end Traced

end JsonStream
