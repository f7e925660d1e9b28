import JsonStream.Proofs.Tree.Takes

/-!
# What a tree refuses

The other side of `Tree.Takes`: the rules by which a byte is refused, one constructor for each cause at each
kind of place. Everything that is proved of refused bytes goes by cases on `Tree.Refuses`.

- `Begins.Refuses` — bytes that begin no value, or one for which there is no room
- `Settled.Refuses` — bytes that may not follow a value
- `Tree.refuses_of_feed` — all places
-/

namespace JsonStream

open Grammar (Fits)

variable {o : Options} {outer : List Frame} {b : UInt8} {t : Tree} {fault : Fault}

def Options.Full (o : Options) (length limit : Nat) : Prop :=
  o.maxTokenLength = some limit ∧ limit ≤ length

/-- A token that is within its limit and has reached it is as long as the limit. -/
theorem Options.Full.length_eq {length limit : Nat} (full : o.Full length limit) (fits : Fits o length) :
    length = limit :=
  Nat.le_antisymm (fits limit full.1) full.2

/-- A rule that goes on with a longer token, and does not refuse it, refuses a token at its limit only. -/
theorem Options.bind_extend_eq_error_iff {α : Type} {o : Options} {token : Array UInt8} {b : UInt8}
    {f : Array UInt8 → α} :
    ((o.extend token b).bind fun longer => .ok (f longer)) = .error fault ↔
      ∃ limit, o.Full token.size limit ∧ fault = .tokenTooLong limit := by
  cases extended : o.extend token b with
  | error cause =>
      rcases extend_eq_error_iff.1 extended with ⟨limit, limited, full, rfl⟩
      constructor
      · rintro ⟨⟩
        exact ⟨limit, ⟨limited, full⟩, rfl⟩
      · rintro ⟨other, ⟨same, -⟩, rfl⟩
        rw [limited] at same
        cases same
        rfl
  | ok longer =>
      rcases extend_eq_ok_iff.1 extended with ⟨rfl, fits⟩
      constructor
      · rintro ⟨⟩
      · rintro ⟨limit, ⟨limited, full⟩, -⟩
        exact absurd full (Nat.not_le.2 (fits limit limited))

/-! ## Beginnings -/

inductive Begins.Refuses (o : Options) (outer : List Frame) : UInt8 → Fault → Prop
  | depth (c : Container) (full : o.maxDepth ≤ outer.length) :
      Refuses o outer c.opening (.depthExceeded o.maxDepth)
  | number {b : UInt8} {limit : Nat} (first : Byte.startsNumber b = true) (full : o.Full 0 limit) :
      Refuses o outer b (.tokenTooLong limit)
  | other {b : UInt8} : Refuses o outer b (.unexpectedByte b)

/-- Why a byte does not begin a value. -/
theorem refuses_of_beginValue (h : beginValue o outer b = .error fault) : Begins.Refuses o outer b fault := by
  unfold beginValue at h
  split at h
  · rename_i c opened
    obtain rfl := Container.openedBy?_eq_some_iff.1 opened
    split at h
    · rename_i full
      cases h
      exact .depth c full
    · cases h
  · split at h
    · cases h
    · split at h
      · rename_i first
        rcases Options.bind_extend_eq_error_iff.1 h with ⟨limit, full, rfl⟩
        exact .number first full
      · split at h
        · cases h
        · cases h
          exact .other

/-! ## After a value -/

inductive Settled.Refuses : Settled → UInt8 → Fault → Prop
  | element {outer : List Frame} {items : Array Value} :
      Refuses (.element outer items) Byte.closeBrace (.mismatchedTerminator Byte.closeBracket Byte.closeBrace)
  | member {outer : List Frame} {members : Array (Bytes × Value)} :
      Refuses (.member outer members) Byte.closeBracket
        (.mismatchedTerminator Byte.closeBrace Byte.closeBracket)
  | other {s : Settled} {b : UInt8} : Refuses s b (.unexpectedByte b)

/-- Why a byte may not follow a value. -/
theorem Settled.refuses_of_feed {s : Settled} (h : s.feed o b = .error fault) : s.Refuses b fault := by
  unfold feed at h
  split at h
  · cases h
  · cases s with
    | document v =>
        cases h
        exact .other
    | element outer items =>
        simp only at h
        split at h
        · cases h
        · split at h
          · cases h
          · split at h
            · rename_i brace
              subst brace
              cases h
              exact .element
            · cases h
              exact .other
    | member outer members =>
        simp only at h
        split at h
        · cases h
        · split at h
          · cases h
          · split at h
            · rename_i bracket
              subst bracket
              cases h
              exact .member
            · cases h
              exact .other

/-! ## Any place -/

/-- Everything for which a tree refuses a byte. -/
inductive Tree.Refuses (o : Options) : Tree → UInt8 → Fault → Prop
  -- Some byte means nothing at some place, whichever.
  | unexpected {t : Tree} {b : UInt8} : Refuses o t b (.unexpectedByte b)
  | settled {s : Settled} {b : UInt8} {fault : Fault} (rest : s.Refuses b fault) :
      Refuses o (.settled s) b fault
  | blankBegins {outer : List Frame} {b : UInt8} {fault : Fault} (begins : Begins.Refuses o outer b fault) :
      Refuses o (.live outer .blank) b fault
  | keyword {outer : List Frame} {word : Keyword} {seen : Nat} {b : UInt8}
      (mismatch : word.spelling[seen]? ≠ some b) :
      Refuses o (.live outer (.keyword word seen)) b (.keywordMismatch word)
  | numberNext {outer : List Frame} {literal : Array UInt8} {b : UInt8} {limit : Nat}
      (part : Byte.inNumber b = true) (full : o.Full literal.size limit) :
      Refuses o (.live outer (.number literal)) b (.tokenTooLong limit)
  | numberEnd {outer : List Frame} {literal : Array UInt8} {b : UInt8}
      (ends : o.isSpace b = true ∨ Byte.followsNumber b = true)
      (invalid : Binary64.read? literal.toList = none) :
      Refuses o (.live outer (.number literal)) b (.invalidNumber literal.toList)
  | numberRest {outer : List Frame} {literal : Array UInt8} {b : UInt8} {v : Value} {fault : Fault}
      (value : numberOf literal = .ok v) (rest : (Settled.of outer v).Refuses b fault) :
      Refuses o (.live outer (.number literal)) b fault
  | stringPlain {outer : List Frame} {role : Role} {text : Array UInt8} {b : UInt8} {limit : Nat}
      (notQuote : b ≠ Byte.quote) (notBackslash : b ≠ Byte.backslash) (full : o.Full text.size limit) :
      Refuses o (.live outer (.string role text)) b (.tokenTooLong limit)
  | escapeUnknown {outer : List Frame} {role : Role} {text : Array UInt8} {b : UInt8}
      (unknown : Escape.decode? b = none) :
      Refuses o (.live outer (.escape role text)) b (.invalidEscape b)
  | escape {outer : List Frame} {role : Role} {text : Array UInt8} {b c : UInt8} {limit : Nat}
      (decoded : Escape.decode? b = some c) (full : o.Full text.size limit) :
      Refuses o (.live outer (.escape role text)) b (.tokenTooLong limit)
  | elementClose {outer : List Frame} {items : Array Value} :
      Refuses o (.live outer (.element items)) Byte.closeBrace
        (.mismatchedTerminator Byte.closeBracket Byte.closeBrace)
  | elementBegins {outer : List Frame} {items : Array Value} {b : UInt8} {fault : Fault}
      (begins : Begins.Refuses o (.array items :: outer) b fault) :
      Refuses o (.live outer (.element items)) b fault
  | nameClose {outer : List Frame} {members : Array (Bytes × Value)} :
      Refuses o (.live outer (.name members)) Byte.closeBracket
        (.mismatchedTerminator Byte.closeBrace Byte.closeBracket)

namespace Tree

variable {items : Array Value} {members : Array (Bytes × Value)} {name : Bytes} {word : Keyword}
  {seen : Nat} {literal text : Array UInt8} {role : Role}

theorem refuses_of_number (h : (live outer (.number literal)).feed o b = .error fault) :
    Refuses o (live outer (.number literal)) b fault := by
  cases part : Byte.inNumber b with
  | true =>
      rw [feed_number_of_inNumber part] at h
      rcases Options.bind_extend_eq_error_iff.1 h with ⟨limit, full, rfl⟩
      exact .numberNext part full
  | false =>
      by_cases ends : o.isSpace b = true ∨ Byte.followsNumber b = true
      · rw [feed_number_of_ends ends] at h
        cases value : numberOf literal with
        | error cause =>
            rw [value] at h
            cases h
            unfold numberOf at value
            split at value
            · cases value
            · rename_i invalid
              cases value
              exact .numberEnd ends invalid
        | ok v =>
            rw [value] at h
            exact .numberRest value (Settled.refuses_of_feed h)
      · rw [feed_number_of_neither part ends] at h
        cases h
        exact .unexpected

/-- Why a byte is refused inside a string: for the limit only. -/
theorem refuses_of_string (h : (live outer (.string role text)).feed o b = .error fault) :
    Refuses o (live outer (.string role text)) b fault := by
  rw [feed_string, feedString] at h
  split at h
  · cases h
  · rename_i notQuote
    split at h
    · cases h
    · rename_i notBackslash
      rcases Options.bind_extend_eq_error_iff.1 h with ⟨limit, full, rfl⟩
      exact .stringPlain notQuote notBackslash full

/-- Why a byte is refused after a backslash: it is no escape, or there is no room. -/
theorem refuses_of_escape (h : (live outer (.escape role text)).feed o b = .error fault) :
    Refuses o (live outer (.escape role text)) b fault := by
  rw [feed_escape, feedEscape] at h
  split at h
  · rename_i unknown
    cases h
    exact .escapeUnknown unknown
  · rename_i c decoded
    rcases Options.bind_extend_eq_error_iff.1 h with ⟨limit, full, rfl⟩
    exact .escape decoded full

theorem refuses_of_element (h : (live outer (.element items)).feed o b = .error fault) :
    Refuses o (live outer (.element items)) b fault := by
  rw [feed_element, feedElement] at h
  split at h
  · cases h
  · split at h
    · cases h
    · split at h
      · rename_i brace
        subst brace
        cases h
        exact .elementClose
      · exact .elementBegins (refuses_of_beginValue h)

theorem refuses_of_name (h : (live outer (.name members)).feed o b = .error fault) :
    Refuses o (live outer (.name members)) b fault := by
  rw [feed_name, feedName] at h
  split at h
  · cases h
  · split at h
    · cases h
    · split at h
      · cases h
      · split at h
        · rename_i bracket
          subst bracket
          cases h
          exact .nameClose
        · cases h
          exact .unexpected

/-- A tree refuses a byte by one of the rules only. -/
theorem refuses_of_feed (h : t.feed o b = .error fault) : Refuses o t b fault := by
  cases t with
  | settled s =>
      rw [feed_settled] at h
      exact .settled (Settled.refuses_of_feed h)
  | live outer focus =>
      cases focus with
      | blank =>
          rw [feed_blank] at h
          split at h
          · cases h
          · exact .blankBegins (refuses_of_beginValue h)
      | keyword word seen =>
          rw [feed_keyword, feedKeyword] at h
          split at h
          · split at h <;> cases h
          · rename_i mismatch
            cases h
            exact .keyword mismatch
      | number literal =>
          exact refuses_of_number h
      | string role text =>
          exact refuses_of_string h
      | escape role text =>
          exact refuses_of_escape h
      | element items =>
          exact refuses_of_element h
      | name members =>
          exact refuses_of_name h
      | colon members name =>
          rw [feed_colon, feedColon] at h
          split at h
          · cases h
          · split at h
            · cases h
            · cases h
              exact .unexpected

end Tree

end JsonStream
