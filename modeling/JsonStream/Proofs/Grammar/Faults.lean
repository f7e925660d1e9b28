import JsonStream.Proofs.Grammar.Accepts
import JsonStream.Proofs.Tree.Refuses
import JsonStream.Proofs.Tree.Scanning
import JsonStream.Session.Run

/-!
# Failures are faithful

What a failure says is true of the bytes that led to it: its position is the one after the bytes accepted
before, and its fault describes these bytes and the one that was refused, in terms of the grammar and of
the bracket scanner.

- `Fault.Tells` — what a fault says
- `Failure.Faithful` — what a failure says
- `Tree.tells_of_refuses`, `Tree.tells_of_finish` — one byte, and the end of the input
- `Session.failures_faithful` — sessions
-/

namespace JsonStream

/-! ## What faults say -/

namespace Grammar

def BeforeValue (o : Options) (s : Bytes) : Prop :=
  ∃ outer, Leads o outer s

def BeforeString (o : Options) (s : Bytes) : Prop :=
  ∃ outer role, LeadsTo o outer role s

def EndsApart (s : Bytes) : Prop :=
  ∀ b, s.getLast? = some b → Byte.inNumber b = false

/-- The text ends inside a token of so many bytes, and the byte would make it longer by one. Escapes count as
what they stand for. -/
inductive Grows (o : Options) : Bytes → UInt8 → Nat → Prop
  | number {lead literal : Bytes} {b : UInt8} (place : BeforeValue o lead)
      (first : ∃ c rest, literal ++ [b] = c :: rest ∧ Byte.startsNumber c = true)
      (parts : ∀ c ∈ literal ++ [b], Byte.inNumber c = true) : Grows o (lead ++ literal) b literal.length
  | plain {lead s text : Bytes} {b : UInt8} (place : BeforeString o lead) (content : Content s text)
      (notQuote : b ≠ Byte.quote) (notBackslash : b ≠ Byte.backslash) :
      Grows o (lead ++ Byte.quote :: s) b text.length
  | escape {lead s text : Bytes} {b c : UInt8} (place : BeforeString o lead) (content : Content s text)
      (decoded : Escape.decode? b = some c) :
      Grows o (lead ++ Byte.quote :: s ++ [Byte.backslash]) b text.length

end Grammar

open Grammar (BeforeValue Grows Leads Reads Document)

/-- The literal is all that has come of a number: there are no more bytes of numbers around it, and a value
may begin where it does. -/
structure Grammar.LastNumber (o : Options) (before : Bytes) (next : Option UInt8) (literal : Bytes) :
    Prop where
  nonempty : literal ≠ []
  parts : ∀ b ∈ literal, Byte.inNumber b = true
  split : ∃ lead, before = lead ++ literal ∧ BeforeValue o lead ∧ Grammar.EndsApart lead
  stopped : ∀ b, next = some b → Byte.inNumber b = false

inductive Fault.Tells (o : Options) (before : Bytes) : Option UInt8 → Fault → Prop
  | unexpectedByte (b : UInt8) : Tells o before (some b) (.unexpectedByte b)
  | invalidEscape (b : UInt8) (escaped : (Brackets.scan before).mode = .escaped)
      (unknown : Escape.decode? b = none) : Tells o before (some b) (.invalidEscape b)
  | mismatchedTerminator {c : Container} {rest : List Container}
      (innermost : Brackets.scan before = ⟨.outside, c :: rest⟩) :
      Tells o before (some c.other.closing) (.mismatchedTerminator c.closing c.other.closing)
  | keywordMismatch {word : Keyword} {lead part : Bytes} {b : UInt8} (split : before = lead ++ part)
      (place : BeforeValue o lead) (begun : part ≠ []) (more : part ≠ word.spelling)
      (agrees : part <+: word.spelling) (differs : ¬ part ++ [b] <+: word.spelling) :
      Tells o before (some b) (.keywordMismatch word)
  | invalidNumber {next : Option UInt8} {literal : Bytes} (last : Grammar.LastNumber o before next literal)
      (invalid : ¬ ∃ d x, Decimal.Numeral literal d ∧ d.RoundsTo x) :
      Tells o before next (.invalidNumber literal)
  | tokenTooLong {limit : Nat} {b : UInt8} (limited : o.maxTokenLength = some limit)
      (grows : Grows o before b limit) : Tells o before (some b) (.tokenTooLong limit)
  | depthExceeded {stack : List Container} (c : Container) (place : BeforeValue o before)
      (opened : Brackets.scan before = ⟨.outside, stack⟩) (full : stack.length = o.maxDepth) :
      Tells o before (some c.opening) (.depthExceeded o.maxDepth)
  | unexpectedEnd (incomplete : ∀ v, ¬ Document o before v) : Tells o before none .unexpectedEnd

/-- What a failure says: where it is, its cause, and that whatever comes after the byte refused, it is too
late. -/
structure Failure.Faithful (o : Options) (before : Bytes) (next : Option UInt8) (failure : Failure) :
    Prop where
  position : failure.position = .after before
  fault : failure.fault.Tells o before next
  final : ∀ b, next = some b → ∀ rest v, ¬ Document o (before ++ b :: rest) v

variable {o : Options} {outer : List Frame} {t u : Tree} {b : UInt8} {events : List Event}
  {before bytes s : Bytes} {fault : Fault} {failure : Failure} {next : Option UInt8}

/-! ## Places where values begin -/

namespace Grammar

/-- A text does not lead into more containers than the limit. -/
theorem Leads.length_le (lead : Leads o outer s) : outer.length ≤ o.maxDepth := by
  cases lead with
  | document blank =>
      exact Nat.zero_le _
  | array outside room row blank =>
      exact room
  | object outside room row blank quoted beforeColon afterColon =>
      exact room

/-- A byte that is not of numbers ends a text apart. -/
theorem EndsApart.mark {mark : UInt8} (other : Byte.inNumber mark = false) (s : Bytes) :
    EndsApart (s ++ [mark]) := by
  intro b last
  rw [List.getLast?_concat] at last
  cases last
  exact other

theorem EndsApart.blank {a : Bytes} (apart : EndsApart s) (blank : Blank o a) : EndsApart (s ++ a) := by
  rcases List.eq_nil_or_concat' a with rfl | ⟨init, c, rfl⟩
  · rwa [List.append_nil]
  · rw [← List.append_assoc]
    refine EndsApart.mark ?_ _
    exact Byte.not_inNumber_of_ends (.inl (blank c (by simp)))

/-- After a comma or a bracket the text ends apart. -/
theorem Row.endsApart {depth : Nat} {r : Bytes} {items : List Value} (row : Row o depth r items) (s : Bytes) :
    EndsApart (s ++ Byte.openBracket :: r) := by
  cases row with
  | nil =>
      exact .mark rfl s
  | @snoc q a w c items v row before value after =>
      have comma : EndsApart (s ++ Byte.openBracket :: (q ++ (a ++ w ++ c)) ++ [Byte.comma]) := .mark rfl _
      simpa using comma

/-- Where a value may begin, no number is in progress: there is an opening bracket, a comma, a colon or
nothing before it, and white space. -/
theorem Leads.endsApart (lead : Leads o outer s) : EndsApart s := by
  cases lead with
  | document blank =>
      have nothing : EndsApart [] := nofun
      exact nothing.blank blank
  | @array outer items p r a outside room row blank =>
      have whole := (row.endsApart p).blank blank
      simpa using whole
  | @object outer members name p r a k b c outside room row blank quoted beforeColon afterColon =>
      have colon : EndsApart (p ++ Byte.openBrace :: (r ++ a) ++ k ++ b ++ [Byte.colon]) := .mark rfl _
      have whole := colon.blank afterColon
      simpa using whole

end Grammar

/-! ## Bytes of a number in progress -/

/-- A number in progress consists of bytes of numbers. -/
def Tree.Numeric : Tree → Prop
  | live _ (.number literal) => ∀ b ∈ literal.toList, Byte.inNumber b = true
  | _ => True

namespace Tree

theorem numeric_of_begins (begins : Begins o outer b t events) : t.Numeric := by
  cases begins with
  | container c room =>
      cases c <;> trivial
  | number first fits =>
      intro c mem
      obtain rfl : c = b := by simpa using mem
      exact Byte.inNumber_of_startsNumber first
  | _ =>
      trivial

theorem numeric_of_settled {s : Settled} (takes : s.Takes o b t events) : t.Numeric := by
  cases takes <;> trivial

/-- One byte keeps a number in progress numeric. -/
theorem numeric_of_takes (numeric : t.Numeric) (takes : Takes o t b u events) : u.Numeric := by
  cases takes with
  | settled rest =>
      exact numeric_of_settled rest
  | blankBegins begins =>
      exact numeric_of_begins begins
  | numberNext part fits =>
      intro c mem
      rw [Array.toList_push, List.mem_append, List.mem_singleton] at mem
      rcases mem with earlier | rfl
      · exact numeric c earlier
      · exact part
  | numberEnd ends value rest =>
      exact numeric_of_settled rest
  | @stringEnd outer role text =>
      cases role <;> trivial
  | elementBegins begins =>
      exact numeric_of_begins begins
  | _ =>
      trivial

theorem numeric_of_feedAll (run : Tree.feedAll o .empty bytes = .ok t) : t.Numeric := by
  have start : Tree.empty.Numeric := trivial
  exact feedEach_induction (fun numeric taken => numeric_of_takes numeric (takes_of_feed taken)) start run

/-! ## Refusals -/

/-- A byte refused where a value is to come, by the text before it. -/
theorem tells_of_begins (lead : Leads o outer before)
    (scanned : Brackets.scan before = ⟨.outside, outer.map Frame.container⟩)
    (refuses : Begins.Refuses o outer b fault) : fault.Tells o before (some b) := by
  cases refuses with
  | depth c full =>
      refine .depthExceeded c ⟨outer, lead⟩ scanned ?_
      rw [List.length_map]
      exact Nat.le_antisymm lead.length_le full
  | @number b limit first full =>
      obtain rfl : limit = 0 := Nat.le_zero.1 full.2
      have grows : Grows o (before ++ []) b 0 := by
        refine .number ⟨outer, lead⟩ ⟨b, [], rfl, first⟩ ?_
        intro c mem
        obtain rfl := List.mem_singleton.1 mem
        exact Byte.inNumber_of_startsNumber first
      rw [List.append_nil] at grows
      exact .tokenTooLong full.1 grows
  | other =>
      exact .unexpectedByte b

/-- A byte refused after a value, by the containers that the scanner has open. -/
theorem tells_of_settled {s : Settled} (scanned : Brackets.scan before = (settled s).scanned)
    (refuses : s.Refuses b fault) : fault.Tells o before (some b) := by
  cases refuses with
  | element =>
      exact .mismatchedTerminator scanned
  | member =>
      exact .mismatchedTerminator scanned
  | other =>
      exact .unexpectedByte b

/-- A number that ends is refused for its literal, which is all of it. -/
theorem tells_of_invalid {literal : Array UInt8} (reads : Reads o (live outer (.number literal)) before)
    (numeric : (live outer (.number literal)).Numeric)
    (stopped : ∀ b, next = some b → Byte.inNumber b = false)
    (invalid : Binary64.read? literal.toList = none) :
    (Fault.invalidNumber literal.toList).Tells o before next := by
  cases reads with
  | @number outer literal p lead first fits =>
      refine .invalidNumber ⟨?_, numeric, ⟨p, rfl, ⟨outer, lead⟩, lead.endsApart⟩, stopped⟩ ?_
      · rcases first with ⟨c, rest, literal_eq, -⟩
        rw [literal_eq]
        exact List.cons_ne_nil c rest
      · rintro ⟨d, x, numeral, rounds⟩
        rw [Binary64.read?_eq_some_iff.2 ⟨d, numeral, rounds⟩] at invalid
        cases invalid

/-- A byte that a tree refuses is described by the fault, along with the bytes before it. -/
theorem tells_of_refuses (reads : Reads o t before) (scanned : Brackets.scan before = t.scanned)
    (numeric : t.Numeric) (refuses : Refuses o t b fault) : fault.Tells o before (some b) := by
  cases refuses with
  | unexpected =>
      exact .unexpectedByte b
  | settled rest =>
      exact tells_of_settled scanned rest
  | blankBegins begins =>
      cases reads with
      | blank lead =>
          exact tells_of_begins lead scanned begins
  | @keyword outer word seen b mismatch =>
      cases reads with
      | @keyword outer word seen p lead begun more =>
          have length : (word.spelling.take seen).length = seen := by
            rw [List.length_take, Nat.min_eq_left more.le]
          refine .keywordMismatch rfl ⟨outer, lead⟩ ?_ ?_ (List.take_prefix _ _) ?_
          · intro nothing
            rw [nothing] at length
            exact begun.ne length
          · intro all
            rw [all] at length
            exact more.ne' length
          · rw [take_concat_prefix_iff]
            exact mismatch
  | @numberNext outer literal b limit part full =>
      cases reads with
      | @number outer literal p lead first fits =>
          have grows : Grows o (p ++ literal.toList) b literal.toList.length := by
            refine .number ⟨outer, lead⟩ ?_ ?_
            · rcases first with ⟨c, rest, literal_eq, starts⟩
              exact ⟨c, rest ++ [b], by rw [literal_eq]; rfl, starts⟩
            · intro c mem
              rcases List.mem_append.1 mem with earlier | last
              · exact numeric c earlier
              · obtain rfl := List.mem_singleton.1 last
                exact part
          rw [Array.length_toList, full.length_eq fits] at grows
          exact .tokenTooLong full.1 grows
  | numberEnd ends invalid =>
      refine tells_of_invalid reads numeric ?_ invalid
      rintro c ⟨⟩
      exact Byte.not_inNumber_of_ends ends
  | @numberRest outer literal b v fault value rest =>
      -- The byte after a number is refused as after any value, and the scanner is past the number already.
      refine tells_of_settled (scanned.trans ?_) rest
      exact (scanned_of outer v).symm
  | @stringPlain outer role text b limit notQuote notBackslash full =>
      cases reads with
      | @string outer role text p s lead content fits =>
          have grows : Grows o (p ++ Byte.quote :: s) b text.toList.length :=
            .plain ⟨outer, role, lead⟩ content notQuote notBackslash
          rw [Array.length_toList, full.length_eq fits] at grows
          exact .tokenTooLong full.1 grows
  | @escapeUnknown outer role text b unknown =>
      refine .invalidEscape b ?_ unknown
      rw [scanned]
      cases role <;> rfl
  | @escape outer role text b c limit decoded full =>
      cases reads with
      | @escape outer role text p s lead content fits =>
          have grows : Grows o (p ++ Byte.quote :: s ++ [Byte.backslash]) b text.toList.length :=
            .escape ⟨outer, role, lead⟩ content decoded
          rw [Array.length_toList, full.length_eq fits] at grows
          exact .tokenTooLong full.1 grows
  | elementClose =>
      exact .mismatchedTerminator scanned
  | elementBegins begins =>
      cases reads with
      | element lead =>
          exact tells_of_begins lead scanned begins
  | nameClose =>
      exact .mismatchedTerminator scanned

/-- The end of the input is refused for what has not come, unless a number outside all containers is in
progress. -/
theorem eq_unexpectedEnd_of_finish (notNumber : ∀ literal, t ≠ live [] (.number literal))
    (refused : t.finish = .error fault) : fault = .unexpectedEnd := by
  cases t with
  | settled place =>
      cases place with
      | document v =>
          cases refused
      | element outer items =>
          cases refused
          rfl
      | member outer members =>
          cases refused
          rfl
  | live outer focus =>
      cases focus with
      | number literal =>
          cases outer with
          | nil =>
              exact absurd rfl (notNumber literal)
          | cons f outer =>
              cases refused
              rfl
      | _ =>
          simp only [finish, Except.error.injEq] at refused
          exact refused.symm

/-- No document begins with the bytes that a tree has been fed and one that it refuses. -/
theorem not_document_of_feed (run : Tree.feedAll o .empty before = .ok t) (refused : t.feed o b = .error fault)
    (rest : Bytes) (v : Value) : ¬ Document o (before ++ b :: rest) v := by
  intro document
  rcases Grammar.accepts_of_document document with ⟨u, accepted, -⟩
  rcases feedAll_append_eq_ok_iff.1 accepted with ⟨same, again, later⟩
  obtain rfl : t = same := Except.ok.inj (run.symm.trans again)
  rcases feedAll_cons_eq_ok_iff.1 later with ⟨next, events, taken, -⟩
  rw [refused] at taken
  cases taken

/-- Where the input may not end, the fault describes what has come of it. -/
theorem tells_of_finish (run : Tree.feedAll o .empty before = .ok t) (refused : t.finish = .error fault) :
    fault.Tells o before none := by
  by_cases number : ∃ literal, t = live [] (.number literal)
  · rcases number with ⟨literal, rfl⟩
    rw [finish, numberOf] at refused
    cases invalid : Binary64.read? literal.toList with
    | none =>
        rw [invalid] at refused
        cases refused
        refine tells_of_invalid (Grammar.reads_of_feedAll run) (numeric_of_feedAll run) ?_ invalid
        intro b byte
        cases byte
    | some x =>
        rw [invalid] at refused
        cases refused
  · obtain rfl := eq_unexpectedEnd_of_finish (fun literal same => number ⟨literal, same⟩) refused
    refine .unexpectedEnd ?_
    intro v document
    -- A document would have been accepted, and then its end as well.
    rcases Grammar.accepts_of_document document with ⟨u, accepted, ended⟩
    rw [run] at accepted
    cases accepted
    rw [refused] at ended
    cases ended

end Tree

/-! ## Sessions -/

namespace Session

variable {s : Session}

/-- A failure for a byte is faithful to the text before it. -/
theorem faithful_of_feed (run : (start o).feedAll bytes = .ok s)
    (refused : (s.feed b).answer = .error failure) :
    failure.Faithful o bytes (some b) := by
  rcases current_of_feedAll run with ⟨treeRun, rfl⟩
  rcases feed_answer_eq_error_iff.1 refused with ⟨cause, place⟩
  refine ⟨place.trans (position_of_feedAll run), ?_, ?_⟩
  · exact Tree.tells_of_refuses (Grammar.reads_of_feedAll treeRun) (Tree.scan_of_feedAll treeRun)
      (Tree.numeric_of_feedAll treeRun) (Tree.refuses_of_feed cause)
  · intro c byte
    cases byte
    exact Tree.not_document_of_feed treeRun cause

/-- A failure at the end of the input is faithful to the text. -/
theorem faithful_of_finish (run : (start o).feedAll bytes = .ok s)
    (refused : s.finish.answer = .error failure) :
    failure.Faithful o bytes none := by
  rcases finish_answer_eq_error_iff.1 refused with ⟨cause, place⟩
  refine ⟨place.trans (position_of_feedAll run), Tree.tells_of_finish (current_of_feedAll run).1 cause, ?_⟩
  intro b byte
  cases byte

/-- A failure says where the input stopped being accepted, and why, in terms of the input alone. -/
theorem failures_faithful (o : Options) :
    (∀ bytes s, (start o).feedAll bytes = .ok s →
      (∀ b failure, (s.feed b).answer = .error failure → failure.Faithful o bytes (some b)) ∧
        ∀ failure, s.finish.answer = .error failure → failure.Faithful o bytes none) ∧
      ∀ bytes failure, (start o).decode bytes = .error failure →
        (∃ before b rest s, bytes = before ++ b :: rest ∧ (start o).feedAll before = .ok s ∧
          failure.Faithful o before (some b)) ∨
        ∃ s, (start o).feedAll bytes = .ok s ∧ failure.Faithful o bytes none := by
  constructor
  · intro bytes s run
    constructor
    · intro b failure refused
      exact faithful_of_feed run refused
    · intro failure refused
      exact faithful_of_finish run refused
  · intro bytes failure refused
    rcases decode_eq_error_iff.1 refused with early | ⟨s, run, late⟩
    · rcases feedAll_eq_error_iff.1 early with ⟨before, b, rest, s, split, run, last⟩
      exact .inl ⟨before, b, rest, s, split, run, faithful_of_feed run last⟩
    · exact .inr ⟨s, run, faithful_of_finish run late⟩

/-- A brace after a brace in a string: the bracket on the line before it is the one that is open. -/
theorem faithful_brace_in_array :
    ∃ s, (start {}).feedAll [0x5B, 0x0A, 0x22, 0x7D, 0x22] = .ok s ∧
      (s.feed 0x7D).answer = .error ⟨.mismatchedTerminator 0x5D 0x7D, ⟨5, 2, 4⟩⟩ ∧
      Failure.Faithful {} [0x5B, 0x0A, 0x22, 0x7D, 0x22] (some 0x7D)
        ⟨.mismatchedTerminator 0x5D 0x7D, ⟨5, 2, 4⟩⟩ := by
  have run : (start {}).feedAll [0x5B, 0x0A, 0x22, 0x7D, 0x22] =
      .ok ⟨{}, some (.settled (.element [] #[.string [0x7D]])), ⟨5, 2, 4⟩⟩ := by
    rfl
  exact ⟨_, run, rfl, ((failures_faithful {}).1 _ _ run).1 _ _ rfl⟩

end Session

end JsonStream
