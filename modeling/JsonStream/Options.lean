import JsonStream.Fault

/-!
# Options of a session

Two limits and the choice of what counts as white space.
-/

namespace JsonStream

/-- How much a decoder accepts. A token is measured with escapes counted as what they stand for, and lenient
white space is every byte up to the space. -/
structure Options where
  maxDepth : Nat := 128
  maxTokenLength : Option Nat := none
  lenientWhitespace : Bool := false
  deriving DecidableEq, Repr

namespace Options

def isSpace (o : Options) (b : UInt8) : Bool :=
  if o.lenientWhitespace then decide (b ≤ Byte.space)
  else b == Byte.space || b == Byte.tab || b == Byte.lineFeed || b == Byte.carriageReturn

/-- A token with one more byte, if it may have it. -/
def extend (o : Options) (token : Array UInt8) (b : UInt8) : Except Fault (Array UInt8) :=
  match o.maxTokenLength with
  | none => .ok (token.push b)
  | some limit => if limit ≤ token.size then .error (.tokenTooLong limit) else .ok (token.push b)

/-- A token takes one more byte exactly if it has not reached the limit. -/
theorem extend_eq_ok_iff {o : Options} {token longer : Array UInt8} {b : UInt8} :
    o.extend token b = .ok longer ↔
      longer = token.push b ∧ ∀ limit, o.maxTokenLength = some limit → token.size < limit := by
  unfold extend
  split
  · rename_i none_eq
    simp [none_eq, eq_comm]
  · rename_i limit limit_eq
    split
    · rename_i full
      simp only [limit_eq, reduceCtorEq, Option.some.injEq, forall_eq', false_iff, not_and, Nat.not_lt]
      exact fun _ => full
    · rename_i room
      simp only [limit_eq, Except.ok.injEq, Option.some.injEq, forall_eq', eq_comm,
        Nat.lt_of_not_le room, and_true]

/-- A token that has reached the limit refuses every byte, and the fault names the limit. -/
theorem extend_eq_error_iff {o : Options} {token : Array UInt8} {b : UInt8} {fault : Fault} :
    o.extend token b = .error fault ↔
      ∃ limit, o.maxTokenLength = some limit ∧ limit ≤ token.size ∧ fault = .tokenTooLong limit := by
  unfold extend
  split
  · rename_i none_eq
    simp [none_eq]
  · rename_i limit limit_eq
    split
    · rename_i full
      simp [limit_eq, full, eq_comm]
    · rename_i room
      simp [limit_eq, room]

end Options

end JsonStream
