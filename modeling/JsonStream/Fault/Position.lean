import JsonStream.Fault

/-!
# Positions of texts

The position after some bytes, read off the bytes at once. It is the one reached by advancing over them one
by one.
-/

namespace JsonStream.Position

/-- The position after some bytes. The column is counted from the last line feed, or from the start. -/
def after (bytes : Bytes) : Position where
  offset := bytes.length
  line := 1 + bytes.count Byte.lineFeed
  column := 1 + (bytes.reverse.takeWhile (· ≠ Byte.lineFeed)).length

/-- The closed form agrees with the count kept byte by byte. -/
theorem advance_after (bytes : Bytes) (b : UInt8) : (after bytes).advance b = after (bytes ++ [b]) := by
  unfold advance after
  by_cases newline : b = Byte.lineFeed
  · simp [newline, Nat.add_assoc]
  · simp [newline, Nat.add_assoc, Nat.add_comm 1]

theorem foldl_advance (before bytes : Bytes) :
    bytes.foldl advance (after before) = after (before ++ bytes) := by
  induction bytes generalizing before with
  | nil =>
      rw [List.foldl_nil, List.append_nil]
  | cons b rest ih =>
      rw [List.foldl_cons, advance_after, ih, List.append_assoc, List.singleton_append]

end JsonStream.Position
