import JsonStream.Grammar
import JsonStream.Tree.Run

/-!
# What a tree takes

The rules of `Tree.feed` as a relation, one constructor for each thing a byte can do. Everything that is
proved of accepted bytes goes by cases on `Tree.Takes`, and the functions are unfolded here only.

- `beginValue_eq_ok_iff` — the bytes that begin a value
- `Settled.feed_eq_ok_iff` — the bytes that may follow a value
- `Tree.feed_eq_ok_iff` — all places
- `Tree.takes_space` — white space at any place
-/

namespace JsonStream

open Grammar (Fits)

/-! ## Classes of bytes -/

theorem Options.isSpace_eq_false {b : UInt8} (o : Options) (beyond : Byte.space < b) :
    o.isSpace b = false := by
  have ne : ∀ c, c ≤ Byte.space → (b == c) = false := by
    intro c le
    apply beq_false_of_ne
    rintro rfl
    exact absurd beyond (UInt8.not_lt.2 le)
  -- Both notions of white space stop at the space.
  unfold isSpace
  split
  · simpa using beyond
  · simp [ne _ (by decide : Byte.space ≤ Byte.space), ne _ (by decide : Byte.tab ≤ Byte.space),
      ne _ (by decide : Byte.lineFeed ≤ Byte.space), ne _ (by decide : Byte.carriageReturn ≤ Byte.space)]

theorem Options.not_isSpace {b : UInt8} (o : Options) (beyond : Byte.space < b) : ¬ o.isSpace b = true := by
  rw [o.isSpace_eq_false beyond]
  exact Bool.false_ne_true

theorem Byte.space_lt_of_inNumber {b : UInt8} (h : inNumber b = true) : space < b := by
  simp only [inNumber, isDigit, Bool.or_eq_true, Bool.and_eq_true, decide_eq_true_eq, beq_iff_eq] at h
  rcases h with ((((digit | rfl) | rfl) | rfl) | rfl) | rfl
  · exact UInt8.lt_of_lt_of_le (by decide) digit.1
  all_goals decide

theorem Byte.inNumber_of_startsNumber {b : UInt8} (h : startsNumber b = true) : inNumber b = true := by
  simp only [startsNumber, Bool.or_eq_true, beq_iff_eq] at h
  rcases h with rfl | digit
  · decide
  · simp [inNumber, digit]

/-- What ends a number is no part of one. -/
theorem Byte.not_inNumber_of_ends {o : Options} {b : UInt8}
    (ends : o.isSpace b = true ∨ followsNumber b = true) : inNumber b = false := by
  rcases ends with space | follows
  · cases part : inNumber b with
    | false =>
        rfl
    | true =>
        rw [o.isSpace_eq_false (space_lt_of_inNumber part)] at space
        cases space
  · simp only [followsNumber, Bool.or_eq_true, beq_iff_eq] at follows
    rcases follows with (rfl | rfl) | rfl
    all_goals decide

theorem Container.space_lt_closing (c : Container) : Byte.space < c.closing := by
  cases c <;> decide

theorem Container.not_inNumber_closing (c : Container) : Byte.inNumber c.closing = false := by
  cases c <;> rfl

theorem Container.closing_injective {c d : Container} (same : c.closing = d.closing) : c = d := by
  cases c <;> cases d <;> first | rfl | cases same

/-! ## Longer tokens -/

/-- A rule that goes on with a longer token accepts only what fits. -/
theorem Options.bind_extend_eq_ok_iff {α : Type} {o : Options} {token : Array UInt8} {b : UInt8}
    {f : Array UInt8 → Except Fault α} {result : α} :
    (o.extend token b).bind f = .ok result ↔ Fits o (token.size + 1) ∧ f (token.push b) = .ok result := by
  constructor
  · intro h
    cases extended : o.extend token b with
    | error fault =>
        rw [extended] at h
        cases h
    | ok longer =>
        rw [extended] at h
        rcases extend_eq_ok_iff.1 extended with ⟨rfl, fits⟩
        exact ⟨fits, h⟩
  · rintro ⟨fits, h⟩
    rw [extend_eq_ok_iff.2 ⟨rfl, fits⟩]
    exact h

/-! ## Beginnings -/

inductive Begins (o : Options) (outer : List Frame) : UInt8 → Tree → List Event → Prop
  | container (c : Container) (room : outer.length < o.maxDepth) :
      Begins o outer c.opening (.live outer (.inside c)) [.opened c outer.length]
  | string : Begins o outer Byte.quote (.live outer (.string .value #[])) []
  | number {b : UInt8} (first : Byte.startsNumber b = true) (fits : Fits o 1) :
      Begins o outer b (.live outer (.number #[b])) []
  | keyword {b : UInt8} (word : Keyword) (first : word.spelling.head? = some b) :
      Begins o outer b (.live outer (.keyword word 1)) []

variable {o : Options} {outer : List Frame} {b : UInt8} {t t' : Tree} {events : List Event}

theorem Begins.space_lt (begins : Begins o outer b t events) : Byte.space < b := by
  -- Whatever counts as white space, no byte of it begins a value.
  cases begins with
  | container c room =>
      cases c with
      | array =>
          decide
      | object =>
          decide
  | string =>
      decide
  | number first fits =>
      exact Byte.space_lt_of_inNumber (Byte.inNumber_of_startsNumber first)
  | keyword word first =>
      cases word with
      | null =>
          cases first
          decide
      | bool c =>
          cases c with
          | false =>
              cases first
              decide
          | true =>
              cases first
              decide

/-- No closing bracket begins a value. -/
theorem Begins.not_closing (begins : Begins o outer b t events) (c : Container) : b ≠ c.closing := by
  rintro rfl
  -- The closing byte is a variable from here on, so that the cases on `begins` can name it.
  generalize closing : c.closing = b at begins
  cases begins with
  | container d room =>
      cases c <;> cases d <;> exact absurd closing (by decide)
  | string =>
      cases c <;> exact absurd closing (by decide)
  | number first fits =>
      subst closing
      cases c <;> exact absurd first (by decide)
  | keyword word first =>
      subst closing
      rw [← Keyword.startingWith?_eq_some_iff] at first
      cases c <;> cases first

/-- All ways in which a byte begins a value, and there are no others. -/
theorem beginValue_eq_ok_iff : beginValue o outer b = .ok (t, events) ↔ Begins o outer b t events := by
  -- From left to right the tests are followed in their order; from right to left each constructor has to
  -- fail the tests before its own.
  constructor
  · intro h
    unfold beginValue at h
    split at h
    · rename_i c opened
      obtain rfl := Container.openedBy?_eq_some_iff.1 opened
      split at h
      · cases h
      · rename_i room
        cases h
        exact .container c (Nat.lt_of_not_le room)
    · split at h
      · rename_i quote
        subst quote
        cases h
        exact .string
      · split at h
        · rename_i first
          rcases Options.bind_extend_eq_ok_iff.1 h with ⟨fits, began⟩
          cases began
          exact .number first fits
        · split at h
          · rename_i word found
            cases h
            exact .keyword word (Keyword.startingWith?_eq_some_iff.1 found)
          · cases h
  · intro h
    cases h with
    | container c room =>
        have opened : Container.openedBy? c.opening = some c := Container.openedBy?_eq_some_iff.2 rfl
        simp only [beginValue, opened, if_neg (Nat.not_le.2 room)]
    | string =>
        rfl
    | number first fits =>
        -- A digit or a minus sign is neither a bracket nor a quote.
        have notOpening : Container.openedBy? b = none := by
          cases opened : Container.openedBy? b with
          | none =>
              rfl
          | some c =>
              obtain rfl := Container.openedBy?_eq_some_iff.1 opened
              cases c <;> exact absurd first (by decide)
        have notQuote : b ≠ Byte.quote := by
          rintro rfl
          exact absurd first (by decide)
        simp only [beginValue, notOpening, if_neg notQuote, first, if_true]
        exact Options.bind_extend_eq_ok_iff.2 ⟨fits, rfl⟩
    | keyword word first =>
        cases word with
        | null =>
            cases first
            rfl
        | bool c =>
            cases c with
            | false =>
                cases first
                rfl
            | true =>
                cases first
                rfl

/-! ## After a value -/

inductive Settled.Takes (o : Options) : Settled → UInt8 → Tree → List Event → Prop
  | space {s : Settled} {b : UInt8} (space : o.isSpace b = true) : Takes o s b (.settled s) []
  | nextElement {outer : List Frame} {items : Array Value} :
      Takes o (.element outer items) Byte.comma (.live outer (.element items)) []
  | closeArray {outer : List Frame} {items : Array Value} :
      Takes o (.element outer items) Byte.closeBracket (.settled (.of outer (.array items.toList)))
        [.closed .array items.size]
  | nextMember {outer : List Frame} {members : Array (Bytes × Value)} :
      Takes o (.member outer members) Byte.comma (.live outer (.name members)) []
  | closeObject {outer : List Frame} {members : Array (Bytes × Value)} :
      Takes o (.member outer members) Byte.closeBrace (.settled (.of outer (.object members.toList)))
        [.closed .object members.size]

/-- All bytes that may follow a value, and there are no others. -/
theorem Settled.feed_eq_ok_iff {s : Settled} :
    s.feed o b = .ok (t, events) ↔ s.Takes o b t events := by
  constructor
  · intro h
    unfold feed at h
    split at h
    · rename_i space
      cases h
      exact .space space
    · cases s with
      | document v =>
          cases h
      | element outer items =>
          simp only [closeArray] at h
          split at h
          · rename_i comma
            subst comma
            cases h
            exact .nextElement
          · split at h
            · rename_i close
              subst close
              cases h
              exact .closeArray
            · split at h
              · cases h
              · cases h
      | member outer members =>
          simp only [closeObject] at h
          split at h
          · rename_i comma
            subst comma
            cases h
            exact .nextMember
          · split at h
            · rename_i close
              subst close
              cases h
              exact .closeObject
            · split at h
              · cases h
              · cases h
  · intro h
    unfold feed
    -- White space is asked for first, and the bytes of the other rules are none.
    cases h with
    | space space =>
        rw [if_pos space]
    | nextElement =>
        rw [if_neg (o.not_isSpace (by decide))]
        rfl
    | closeArray =>
        rw [if_neg (o.not_isSpace (by decide))]
        rfl
    | nextMember =>
        rw [if_neg (o.not_isSpace (by decide))]
        rfl
    | closeObject =>
        rw [if_neg (o.not_isSpace (by decide))]
        rfl

/-- After the whole document there is nothing but white space. -/
theorem Settled.takes_document_iff {v : Value} :
    (document v).Takes o b t events ↔ o.isSpace b = true ∧ t = .settled (.document v) ∧ events = [] := by
  constructor
  · intro takes
    cases takes with
    | space space =>
        exact ⟨space, rfl, rfl⟩
  · rintro ⟨space, rfl, rfl⟩
    exact .space space

/-! ## Any place -/

/-- Everything that a byte can do to a tree. -/
inductive Tree.Takes (o : Options) : Tree → UInt8 → Tree → List Event → Prop
  | settled {s : Settled} {b : UInt8} {t : Tree} {events : List Event} (rest : s.Takes o b t events) :
      Takes o (.settled s) b t events
  | blankSpace {outer : List Frame} {b : UInt8} (space : o.isSpace b = true) :
      Takes o (.live outer .blank) b (.live outer .blank) []
  | blankBegins {outer : List Frame} {b : UInt8} {t : Tree} {events : List Event}
      (begins : Begins o outer b t events) : Takes o (.live outer .blank) b t events
  | keywordNext {outer : List Frame} {word : Keyword} {seen : Nat} {b : UInt8}
      (next : word.spelling[seen]? = some b) (more : seen + 1 ≠ word.spelling.length) :
      Takes o (.live outer (.keyword word seen)) b (.live outer (.keyword word (seen + 1))) []
  | keywordEnd {outer : List Frame} {word : Keyword} {seen : Nat} {b : UInt8}
      (next : word.spelling[seen]? = some b) (last : seen + 1 = word.spelling.length) :
      Takes o (.live outer (.keyword word seen)) b (.settled (.of outer word.value)) []
  | numberNext {outer : List Frame} {literal : Array UInt8} {b : UInt8} (part : Byte.inNumber b = true)
      (fits : Fits o (literal.size + 1)) :
      Takes o (.live outer (.number literal)) b (.live outer (.number (literal.push b))) []
  | numberEnd {outer : List Frame} {literal : Array UInt8} {b : UInt8} {v : Value} {t : Tree}
      {events : List Event} (ends : o.isSpace b = true ∨ Byte.followsNumber b = true)
      (value : numberOf literal = .ok v) (rest : (Settled.of outer v).Takes o b t events) :
      Takes o (.live outer (.number literal)) b t events
  | stringEnd {outer : List Frame} {role : Role} {text : Array UInt8} :
      Takes o (.live outer (.string role text)) Byte.quote (endString outer text role).1
        (endString outer text role).2
  | stringEscape {outer : List Frame} {role : Role} {text : Array UInt8} :
      Takes o (.live outer (.string role text)) Byte.backslash (.live outer (.escape role text)) []
  | stringPlain {outer : List Frame} {role : Role} {text : Array UInt8} {b : UInt8}
      (notQuote : b ≠ Byte.quote) (notBackslash : b ≠ Byte.backslash) (fits : Fits o (text.size + 1)) :
      Takes o (.live outer (.string role text)) b (.live outer (.string role (text.push b))) []
  | escape {outer : List Frame} {role : Role} {text : Array UInt8} {b c : UInt8}
      (decoded : Escape.decode? b = some c) (fits : Fits o (text.size + 1)) :
      Takes o (.live outer (.escape role text)) b (.live outer (.string role (text.push c))) []
  | elementSpace {outer : List Frame} {items : Array Value} {b : UInt8} (space : o.isSpace b = true) :
      Takes o (.live outer (.element items)) b (.live outer (.element items)) []
  | elementClose {outer : List Frame} :
      Takes o (.live outer (.element #[])) Byte.closeBracket (.settled (.of outer (.array [])))
        [.closed .array 0]
  | elementBegins {outer : List Frame} {items : Array Value} {b : UInt8} {t : Tree}
      {events : List Event} (begins : Begins o (.array items :: outer) b t events) :
      Takes o (.live outer (.element items)) b t events
  | nameSpace {outer : List Frame} {members : Array (Bytes × Value)} {b : UInt8}
      (space : o.isSpace b = true) :
      Takes o (.live outer (.name members)) b (.live outer (.name members)) []
  | nameBegins {outer : List Frame} {members : Array (Bytes × Value)} :
      Takes o (.live outer (.name members)) Byte.quote (.live outer (.string (.name members) #[])) []
  | nameClose {outer : List Frame} :
      Takes o (.live outer (.name #[])) Byte.closeBrace (.settled (.of outer (.object [])))
        [.closed .object 0]
  | colonSpace {outer : List Frame} {members : Array (Bytes × Value)} {name : Bytes} {b : UInt8}
      (space : o.isSpace b = true) :
      Takes o (.live outer (.colon members name)) b (.live outer (.colon members name)) []
  | colon {outer : List Frame} {members : Array (Bytes × Value)} {name : Bytes} :
      Takes o (.live outer (.colon members name)) Byte.colon
        (.live (.object members name :: outer) .blank) []

namespace Tree

variable {items : Array Value} {members : Array (Bytes × Value)} {name : Bytes} {word : Keyword}
  {seen : Nat} {literal text : Array UInt8} {role : Role}

/-! Only a number hands a byte on, so feeding any other place is what its own rule says. -/

/-- Where the byte is used up, there is no second look at it. -/
theorem feed_of_offer {x : Except Fault Taken} (offered : t.offer o b = x.map .taken) :
    t.feed o b = x := by
  unfold feed
  rw [offered]
  cases x with
  | error fault =>
      rfl
  | ok result =>
      rfl

theorem feed_settled (o : Options) (s : Settled) (b : UInt8) : (settled s).feed o b = s.feed o b :=
  feed_of_offer rfl

/-- Where a value is to come, white space is skipped. -/
theorem feed_blank (o : Options) (outer : List Frame) (b : UInt8) :
    (live outer .blank).feed o b =
      if o.isSpace b then .ok (live outer .blank, []) else beginValue o outer b := by
  apply feed_of_offer
  simp only [offer]
  split
  · rfl
  · rfl

theorem feed_keyword : (live outer (.keyword word seen)).feed o b = feedKeyword outer word seen b :=
  feed_of_offer rfl

theorem feed_string : (live outer (.string role text)).feed o b = feedString o outer role text b :=
  feed_of_offer rfl

theorem feed_escape : (live outer (.escape role text)).feed o b = feedEscape o outer role text b :=
  feed_of_offer rfl

theorem feed_element : (live outer (.element items)).feed o b = feedElement o outer items b :=
  feed_of_offer rfl

theorem feed_name : (live outer (.name members)).feed o b = feedName o outer members b :=
  feed_of_offer rfl

theorem feed_colon : (live outer (.colon members name)).feed o b = feedColon o outer members name b :=
  feed_of_offer rfl

/-- A byte of numbers makes the literal longer, whatever sense that makes. -/
theorem feed_number_of_inNumber (part : Byte.inNumber b = true) :
    (live outer (.number literal)).feed o b =
      (o.extend literal b).bind fun longer => .ok (live outer (.number longer), []) := by
  simp only [feed, offer, feedNumber, part, if_true]
  cases o.extend literal b with
  | error fault =>
      rfl
  | ok longer =>
      rfl

/-- A byte that ends the number comes to where the number has ended. -/
theorem feed_number_of_ends (ends : o.isSpace b = true ∨ Byte.followsNumber b = true) :
    (live outer (.number literal)).feed o b =
      (numberOf literal).bind fun v => (Settled.of outer v).feed o b := by
  have ended : (o.isSpace b || Byte.followsNumber b) = true := by
    simpa using ends
  simp only [feed, offer, feedNumber, Byte.not_inNumber_of_ends ends, ended, if_true,
    Bool.false_eq_true, if_false]
  cases numberOf literal with
  | error fault =>
      rfl
  | ok v =>
      rfl

/-- Any other byte is refused before the number is looked at. -/
theorem feed_number_of_neither (part : Byte.inNumber b = false)
    (ends : ¬ (o.isSpace b = true ∨ Byte.followsNumber b = true)) :
    (live outer (.number literal)).feed o b = .error (.unexpectedByte b) := by
  have notEnded : (o.isSpace b || Byte.followsNumber b) = false := by
    simpa using ends
  simp only [feed, offer, feedNumber, part, notEnded, Bool.false_eq_true, if_false]
  rfl

/-! Inversion, one lemma for each place. -/

theorem takes_of_blank (h : (live outer .blank).feed o b = .ok (t, events)) :
    Takes o (live outer .blank) b t events := by
  rw [feed_blank] at h
  split at h
  · rename_i space
    cases h
    exact .blankSpace space
  · exact .blankBegins (beginValue_eq_ok_iff.1 h)

theorem takes_of_keyword (h : (live outer (.keyword word seen)).feed o b = .ok (t, events)) :
    Takes o (live outer (.keyword word seen)) b t events := by
  rw [feed_keyword, feedKeyword] at h
  split at h
  · rename_i next
    split at h
    · rename_i last
      cases h
      exact .keywordEnd next last
    · rename_i more
      cases h
      exact .keywordNext next more
  · cases h

theorem takes_of_number (h : (live outer (.number literal)).feed o b = .ok (t, events)) :
    Takes o (live outer (.number literal)) b t events := by
  cases part : Byte.inNumber b with
  | true =>
      rw [feed_number_of_inNumber part] at h
      rcases Options.bind_extend_eq_ok_iff.1 h with ⟨fits, longer⟩
      cases longer
      exact .numberNext part fits
  | false =>
      -- The byte is no part of the number, so it can only end it.
      by_cases ends : o.isSpace b = true ∨ Byte.followsNumber b = true
      · rw [feed_number_of_ends ends] at h
        cases value : numberOf literal with
        | error fault =>
            rw [value] at h
            cases h
        | ok v =>
            rw [value] at h
            exact .numberEnd ends value (Settled.feed_eq_ok_iff.1 h)
      · rw [feed_number_of_neither part ends] at h
        cases h

theorem takes_of_string (h : (live outer (.string role text)).feed o b = .ok (t, events)) :
    Takes o (live outer (.string role text)) b t events := by
  rw [feed_string, feedString] at h
  split at h
  · rename_i quote
    subst quote
    cases role with
    | value =>
        cases h
        exact .stringEnd
    | name members =>
        cases h
        exact .stringEnd
  · rename_i notQuote
    split at h
    · rename_i backslash
      subst backslash
      cases h
      exact .stringEscape
    · rename_i notBackslash
      rcases Options.bind_extend_eq_ok_iff.1 h with ⟨fits, longer⟩
      cases longer
      exact .stringPlain notQuote notBackslash fits

theorem takes_of_escape (h : (live outer (.escape role text)).feed o b = .ok (t, events)) :
    Takes o (live outer (.escape role text)) b t events := by
  rw [feed_escape, feedEscape] at h
  split at h
  · cases h
  · rename_i c decoded
    rcases Options.bind_extend_eq_ok_iff.1 h with ⟨fits, longer⟩
    cases longer
    exact .escape decoded fits

theorem takes_of_element (h : (live outer (.element items)).feed o b = .ok (t, events)) :
    Takes o (live outer (.element items)) b t events := by
  rw [feed_element, feedElement] at h
  split at h
  · rename_i space
    cases h
    exact .elementSpace space
  · split at h
    · rename_i close
      rcases close with ⟨rfl, empty⟩
      obtain rfl : items = #[] := Array.isEmpty_iff.1 empty
      cases h
      exact .elementClose
    · split at h
      · cases h
      · exact .elementBegins (beginValue_eq_ok_iff.1 h)

theorem takes_of_name (h : (live outer (.name members)).feed o b = .ok (t, events)) :
    Takes o (live outer (.name members)) b t events := by
  rw [feed_name, feedName] at h
  split at h
  · rename_i space
    cases h
    exact .nameSpace space
  · split at h
    · rename_i quote
      subst quote
      cases h
      exact .nameBegins
    · split at h
      · rename_i close
        rcases close with ⟨rfl, empty⟩
        obtain rfl : members = #[] := Array.isEmpty_iff.1 empty
        cases h
        exact .nameClose
      · split at h
        · cases h
        · cases h

theorem takes_of_colon (h : (live outer (.colon members name)).feed o b = .ok (t, events)) :
    Takes o (live outer (.colon members name)) b t events := by
  rw [feed_colon, feedColon] at h
  split at h
  · rename_i space
    cases h
    exact .colonSpace space
  · split at h
    · rename_i colon
      subst colon
      cases h
      exact .colon
    · cases h

/-- A byte that is taken does one of the things listed, whatever the place. -/
theorem takes_of_feed (h : t.feed o b = .ok (t', events)) : Takes o t b t' events := by
  cases t with
  | settled s =>
      rw [feed_settled] at h
      exact .settled (Settled.feed_eq_ok_iff.1 h)
  | live outer focus =>
      cases focus with
      | blank =>
          exact takes_of_blank h
      | keyword word seen =>
          exact takes_of_keyword h
      | number literal =>
          exact takes_of_number h
      | string role text =>
          exact takes_of_string h
      | escape role text =>
          exact takes_of_escape h
      | element items =>
          exact takes_of_element h
      | name members =>
          exact takes_of_name h
      | colon members name =>
          exact takes_of_colon h

/-- Everything listed is done, so the list says neither too much nor too little. -/
theorem feed_of_takes (h : Takes o t b t' events) : t.feed o b = .ok (t', events) := by
  -- As in a settled place, every rule but those for white space has to get past the test for it.
  cases h with
  | settled rest =>
      rw [feed_settled]
      exact Settled.feed_eq_ok_iff.2 rest
  | blankSpace space =>
      rw [feed_blank, if_pos space]
  | blankBegins begins =>
      rw [feed_blank, if_neg (o.not_isSpace begins.space_lt)]
      exact beginValue_eq_ok_iff.2 begins
  | keywordNext next more =>
      rw [feed_keyword, feedKeyword, if_pos next, if_neg more]
  | keywordEnd next last =>
      rw [feed_keyword, feedKeyword, if_pos next, if_pos last]
  | numberNext part fits =>
      rw [feed_number_of_inNumber part]
      exact Options.bind_extend_eq_ok_iff.2 ⟨fits, rfl⟩
  | numberEnd ends value rest =>
      rw [feed_number_of_ends ends, value]
      exact Settled.feed_eq_ok_iff.2 rest
  | stringEnd =>
      rw [feed_string, feedString, if_pos rfl]
  | stringEscape =>
      rw [feed_string, feedString, if_neg (by decide), if_pos rfl]
  | stringPlain notQuote notBackslash fits =>
      rw [feed_string, feedString, if_neg notQuote, if_neg notBackslash]
      exact Options.bind_extend_eq_ok_iff.2 ⟨fits, rfl⟩
  | escape decoded fits =>
      rw [feed_escape, feedEscape, decoded]
      exact Options.bind_extend_eq_ok_iff.2 ⟨fits, rfl⟩
  | elementSpace space =>
      rw [feed_element, feedElement, if_pos space]
  | elementClose =>
      rw [feed_element, feedElement, if_neg (o.not_isSpace (by decide)), if_pos ⟨rfl, rfl⟩]
      rfl
  | @elementBegins outer items b t events begins =>
      -- What begins an element closes nothing, so neither rule about closing applies.
      have notClose : ¬ (b = Byte.closeBracket ∧ items.isEmpty = true) := fun close =>
        begins.not_closing .array close.1
      have notBrace : b ≠ Byte.closeBrace := begins.not_closing .object
      rw [feed_element, feedElement, if_neg (o.not_isSpace begins.space_lt), if_neg notClose, if_neg notBrace]
      exact beginValue_eq_ok_iff.2 begins
  | nameSpace space =>
      rw [feed_name, feedName, if_pos space]
  | nameBegins =>
      rw [feed_name, feedName, if_neg (o.not_isSpace (by decide)), if_pos rfl]
  | nameClose =>
      rw [feed_name, feedName, if_neg (o.not_isSpace (by decide)), if_neg (by decide), if_pos ⟨rfl, rfl⟩]
      rfl
  | colonSpace space =>
      rw [feed_colon, feedColon, if_pos space]
  | colon =>
      rw [feed_colon, feedColon, if_neg (o.not_isSpace (by decide)), if_pos rfl]

/-- A tree that is complete stays as it is, and takes white space only. -/
theorem feed_complete_eq_ok_iff (complete : t.isComplete = true) :
    t.feed o b = .ok (t', events) ↔ o.isSpace b = true ∧ t' = t ∧ events = [] := by
  rcases isComplete_iff.1 complete with ⟨v, rfl⟩
  rw [feed_settled, Settled.feed_eq_ok_iff, Settled.takes_document_iff]

/-- A tree accepts a byte exactly by one of the rules. -/
theorem feed_eq_ok_iff : t.feed o b = .ok (t', events) ↔ Takes o t b t' events :=
  ⟨takes_of_feed, feed_of_takes⟩

end Tree

/-! ## White space -/

theorem Keyword.space_lt_of_mem {w : Keyword} (letter : b ∈ w.spelling) : Byte.space < b := by
  have beyond : w.spelling.all (fun c => decide (Byte.space < c)) = true := by
    cases w with
    | null =>
        rfl
    | bool c =>
        cases c <;> rfl
  exact of_decide_eq_true (List.all_eq_true.1 beyond b letter)

theorem Escape.space_lt_of_decode? {c : UInt8} (decoded : decode? b = some c) : Byte.space < b := by
  refine Decidable.byContradiction fun notBeyond => ?_
  have ne : ∀ d, Byte.space < d → b ≠ d := by
    rintro d beyond rfl
    exact notBeyond beyond
  simp [decode?, ne Byte.quote (by decide), ne Byte.backslash (by decide), ne Byte.slash (by decide),
    ne Byte.lowerB (by decide), ne Byte.lowerF (by decide), ne Byte.lowerN (by decide),
    ne Byte.lowerR (by decide), ne Byte.lowerT (by decide)] at decoded

/-- After a value white space changes nothing. -/
theorem Settled.takes_space {s : Settled} (space : o.isSpace b = true) (takes : s.Takes o b t events) :
    t = .settled s ∧ events = [] := by
  cases takes with
  | space space =>
      exact ⟨rfl, rfl⟩
  | _ =>
      exact absurd space (o.not_isSpace (by decide))

/-- White space is taken by a string, ends a number, or changes nothing. -/
theorem Tree.takes_space (space : o.isSpace b = true) (takes : Takes o t b t' events) :
    (t' = t ∧ events = []) ∨
      (∃ outer role text, t = live outer (.string role text) ∧
        t' = live outer (.string role (text.push b)) ∧ events = []) ∨
      ∃ outer literal v, t = live outer (.number literal) ∧ numberOf literal = .ok v ∧
        t' = settled (.of outer v) ∧ events = [] := by
  -- A rule for one byte or for the beginning of something is not for white space.
  cases takes with
  | settled rest =>
      exact .inl (Settled.takes_space space rest)
  | blankSpace space =>
      exact .inl ⟨rfl, rfl⟩
  | blankBegins begins =>
      exact absurd space (o.not_isSpace begins.space_lt)
  | keywordNext next more =>
      exact absurd space (o.not_isSpace (Keyword.space_lt_of_mem (List.mem_of_getElem? next)))
  | keywordEnd next last =>
      exact absurd space (o.not_isSpace (Keyword.space_lt_of_mem (List.mem_of_getElem? next)))
  | numberNext part fits =>
      exact absurd space (o.not_isSpace (Byte.space_lt_of_inNumber part))
  | numberEnd ends value rest =>
      exact .inr (.inr ⟨_, _, _, rfl, value, Settled.takes_space space rest⟩)
  | stringPlain notQuote notBackslash fits =>
      exact .inr (.inl ⟨_, _, _, rfl, rfl, rfl⟩)
  | escape decoded fits =>
      exact absurd space (o.not_isSpace (Escape.space_lt_of_decode? decoded))
  | elementSpace space =>
      exact .inl ⟨rfl, rfl⟩
  | elementBegins begins =>
      exact absurd space (o.not_isSpace begins.space_lt)
  | nameSpace space =>
      exact .inl ⟨rfl, rfl⟩
  | colonSpace space =>
      exact .inl ⟨rfl, rfl⟩
  | _ =>
      exact absurd space (o.not_isSpace (by decide))

end JsonStream
