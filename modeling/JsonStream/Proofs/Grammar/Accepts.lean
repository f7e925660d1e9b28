import JsonStream.Proofs.Grammar.Reads

/-!
# What the grammar derives is accepted

A derivation drives the tree: fed with a text that spells a value, the tree comes to a place where that
value can end. For a number that place is still inside the literal, so *can end* is a relation of its own,
`Ends`, and a number takes the byte after it as the place behind it would.

- `Ends` — places where a value has ended, or is a number that the next byte may end
- `Drives` — texts that bring a tree from the beginning of a value to its end
- `drives_of_spells` — a derivation drives, by induction on the derivation
- `accepts_of_document` — documents are accepted
-/

namespace JsonStream.Grammar

variable {o : Options} {outer : List Frame} {t t' : Tree} {b : UInt8} {events : List Event}
  {s : Bytes} {v : Value}

/-! ## White space -/

/-- White space changes nothing where every byte of it changes nothing. -/
theorem feedAll_blank (stays : ∀ b, o.isSpace b = true → t.Takes o b t []) (blank : Blank o s) :
    t.feedAll o s = .ok t := by
  induction s with
  | nil =>
      rfl
  | cons b rest ih =>
      rcases Blank.cons_iff.1 blank with ⟨space, restBlank⟩
      rw [Tree.feedAll_cons_of_feed (Tree.feed_of_takes (stays b space))]
      exact ih restBlank

/-! ## Ends -/

/-- The tree is where the value `v` inside the frames `outer` can end. -/
inductive Ends (outer : List Frame) (v : Value) : Tree → Prop
  | settled : Ends outer v (.settled (.of outer v))
  | number {literal : Array UInt8} (value : numberOf literal = .ok v) :
      Ends outer v (.live outer (.number literal))

/-- What can follow a value is taken as at the place behind it. -/
theorem Ends.takes (ends : Ends outer v t) (follows : o.isSpace b = true ∨ Byte.followsNumber b = true)
    (takes : (Settled.of outer v).Takes o b t' events) : t.Takes o b t' events := by
  cases ends with
  | settled =>
      exact .settled takes
  | number value =>
      exact .numberEnd follows value takes

theorem Ends.feedAll_blank_cons (ends : Ends outer v t) (blank : Blank o (b :: s)) :
    t.feedAll o (b :: s) = .ok (.settled (.of outer v)) := by
  rcases Blank.cons_iff.1 blank with ⟨space, restBlank⟩
  -- The first byte of white space ends the value for good, so only the rest needs an induction.
  have first : t.Takes o b (.settled (.of outer v)) [] := ends.takes (.inl space) (.space space)
  rw [Tree.feedAll_cons_of_feed (Tree.feed_of_takes first)]
  exact feedAll_blank (fun c space => .settled (.space space)) restBlank

/-- White space may follow before the value ends. -/
theorem Ends.blank (ends : Ends outer v t) (blank : Blank o s) :
    ∃ u, t.feedAll o s = .ok u ∧ Ends outer v u := by
  cases s with
  | nil =>
      exact ⟨t, rfl, ends⟩
  | cons b rest =>
      exact ⟨.settled (.of outer v), ends.feedAll_blank_cons blank, .settled⟩

/-- A value outside all frames may end with the input. -/
theorem Ends.finish (ends : Ends [] v t) : t.finish = .ok v := by
  cases ends with
  | settled =>
      rfl
  | number value =>
      exact value

/-! ## Tokens -/

/-- The rest of a keyword ends it. -/
theorem feedAll_keyword (o : Options) (outer : List Frame) {word : Keyword} {seen : Nat}
    (more : seen < word.spelling.length) :
    (Tree.live outer (.keyword word seen)).feedAll o (word.spelling.drop seen)
      = .ok (.settled (.of outer word.value)) := by
  -- The induction is on the number of letters still to come.
  obtain ⟨left, total⟩ : ∃ left, word.spelling.length = seen + 1 + left :=
    ⟨word.spelling.length - (seen + 1), by omega⟩
  induction left generalizing seen with
  | zero =>
      have last : seen + 1 = word.spelling.length := by omega
      rw [List.drop_eq_getElem_cons more, last, List.drop_length]
      exact Tree.feedAll_singleton
        (Tree.feed_of_takes (.keywordEnd (List.getElem?_eq_getElem more) last))
  | succ left ih =>
      have notLast : seen + 1 ≠ word.spelling.length := by omega
      have next : (Tree.live outer (.keyword word seen)).Takes o word.spelling[seen]
          (.live outer (.keyword word (seen + 1))) [] :=
        .keywordNext (List.getElem?_eq_getElem more) notLast
      rw [List.drop_eq_getElem_cons more, Tree.feedAll_cons_of_feed (Tree.feed_of_takes next)]
      exact ih (by omega) (by omega)

theorem Fits.mono {m n : Nat} (fits : Fits o n) (le : m ≤ n) : Fits o m := fun limit limited =>
  le.trans (fits limit limited)

/-- Bytes of a number lengthen its literal. -/
theorem feedAll_number {literal : Array UInt8} (parts : ∀ b ∈ s, Byte.inNumber b = true)
    (fits : Fits o (literal.size + s.length)) :
    ∃ longer, longer.toList = literal.toList ++ s ∧
      (Tree.live outer (.number literal)).feedAll o s = .ok (.live outer (.number longer)) := by
  induction s generalizing literal with
  | nil =>
      exact ⟨literal, by simp, rfl⟩
  | cons b rest ih =>
      have part : Byte.inNumber b = true := parts b (by simp)
      have room : Fits o (literal.size + 1) := fits.mono (by simp)
      -- The limit is on the whole literal, of which this byte is now a part.
      have restFits : Fits o ((literal.push b).size + rest.length) :=
        fits.mono (by simp; omega)
      rcases ih (fun c mem => parts c (by simp [mem])) restFits with ⟨longer, content, run⟩
      refine ⟨longer, by simp [content], ?_⟩
      rw [Tree.feedAll_cons_of_feed (Tree.feed_of_takes (.numberNext part room))]
      exact run

/-- Content of a string lengthens its text. -/
theorem feedAll_string {role : Role} {text : Array UInt8} {more : Bytes} (content : Content s more)
    (fits : Fits o (text.size + more.length)) :
    ∃ longer, longer.toList = text.toList ++ more ∧
      (Tree.live outer (.string role text)).feedAll o s = .ok (.live outer (.string role longer)) := by
  -- An escape is two bytes for one of the text, so the induction is on the content and not on the bytes.
  induction content generalizing text with
  | nil =>
      exact ⟨text, by simp, rfl⟩
  | @plain b s more notQuote notBackslash _ ih =>
      have room : Fits o (text.size + 1) := fits.mono (by simp)
      have restFits : Fits o ((text.push b).size + more.length) := fits.mono (by simp; omega)
      rcases ih restFits with ⟨longer, whole, run⟩
      refine ⟨longer, by simp [whole], ?_⟩
      rw [Tree.feedAll_cons_of_feed (Tree.feed_of_takes (.stringPlain notQuote notBackslash room))]
      exact run
  | @escape b c s more decoded _ ih =>
      have room : Fits o (text.size + 1) := fits.mono (by simp)
      have restFits : Fits o ((text.push c).size + more.length) := fits.mono (by simp; omega)
      rcases ih restFits with ⟨longer, whole, run⟩
      refine ⟨longer, by simp [whole], ?_⟩
      rw [Tree.feedAll_cons_of_feed (Tree.feed_of_takes .stringEscape),
        Tree.feedAll_cons_of_feed (Tree.feed_of_takes (.escape decoded room))]
      exact run

/-- A string with its quotes, after the first of them. -/
theorem feedAll_quoted (outer : List Frame) (role : Role) {text : Bytes} (quoted : Quoted o s text) :
    ∃ inside longer, s = Byte.quote :: inside ∧ longer.toList = text ∧
      (Tree.live outer (.string role #[])).feedAll o inside = .ok (endString outer longer role).1 := by
  cases quoted with
  | @intro raw text content fits =>
      obtain ⟨longer, whole, run⟩ :=
        feedAll_string content (by simpa using fits : Fits o ((#[] : Array UInt8).size + text.length))
      refine ⟨raw ++ [Byte.quote], longer, rfl, by simpa using whole, ?_⟩
      exact Tree.feedAll_trans run (Tree.feedAll_singleton (Tree.feed_of_takes .stringEnd))

end JsonStream.Grammar

/-! ## Bytes of numerals -/

namespace JsonStream.Decimal

variable {s : Bytes} {n places : Nat} {e : Int} {d : Decimal}

theorem Digits.inNumber (digits : Digits s) : ∀ b ∈ s, Byte.inNumber b = true := by
  intro b mem
  simp [Byte.inNumber, digits b mem]

theorem Mantissa.inNumber (mantissa : Mantissa s n places) : ∀ b ∈ s, Byte.inNumber b = true := by
  intro b mem
  rcases mantissa.digit_or_point b mem with digit | rfl
  · simp [Byte.inNumber, digit]
  · decide

theorem Exponent.inNumber (exponent : Exponent s e) : ∀ b ∈ s, Byte.inNumber b = true := by
  have mark : ∀ mark, mark = Byte.lowerE ∨ mark = Byte.upperE → Byte.inNumber mark = true := by
    rintro mark (rfl | rfl)
    · decide
    · decide
  intro b mem
  cases exponent with
  | absent =>
      cases mem
  | unsigned isMark digits nonempty =>
      rcases List.mem_cons.1 mem with rfl | mem
      · exact mark _ isMark
      · exact digits.inNumber b mem
  | plus isMark digits nonempty =>
      rcases List.mem_cons.1 mem with rfl | mem
      · exact mark _ isMark
      · rcases List.mem_cons.1 mem with rfl | mem
        · decide
        · exact digits.inNumber b mem
  | minus isMark digits nonempty =>
      rcases List.mem_cons.1 mem with rfl | mem
      · exact mark _ isMark
      · rcases List.mem_cons.1 mem with rfl | mem
        · decide
        · exact digits.inNumber b mem

/-- A numeral consists of bytes of numbers. -/
theorem Numeral.inNumber (numeral : Numeral s d) : ∀ b ∈ s, Byte.inNumber b = true := by
  cases numeral with
  | intro negative mantissa exponent =>
      intro b mem
      rcases List.mem_append.1 mem with left | right
      · rcases List.mem_append.1 left with sign | digits
        · cases negative with
          | false =>
              cases sign
          | true =>
              obtain rfl := List.mem_singleton.1 sign
              decide
        · exact mantissa.inNumber b digits
      · exact exponent.inNumber b right

end JsonStream.Decimal

namespace JsonStream.Grammar

variable {o : Options} {outer : List Frame} {t t' : Tree} {b : UInt8} {events : List Event}
  {s : Bytes} {v : Value}

/-! ## Values -/

/-- The text begins a value inside the frames and goes on to where it can end. -/
def Drives (o : Options) (outer : List Frame) (s : Bytes) (v : Value) : Prop :=
  ∃ b rest first events last, s = b :: rest ∧ Begins o outer b first events ∧
    first.feedAll o rest = .ok last ∧ Ends outer v last

/-- Where a value is to come, its text leads to its end. -/
theorem Drives.fromBlank (drives : Drives o outer s v) :
    ∃ last, (Tree.live outer .blank).feedAll o s = .ok last ∧ Ends outer v last := by
  rcases drives with ⟨b, rest, first, events, last, rfl, begins, run, ends⟩
  refine ⟨last, ?_, ends⟩
  rw [Tree.feedAll_cons_of_feed (Tree.feed_of_takes (.blankBegins begins))]
  exact run

/-- Where an element or a closing bracket is to come, the text of a value leads to its end. -/
theorem Drives.fromElement {items : Array Value} (drives : Drives o (.array items :: outer) s v) :
    ∃ last, (Tree.live outer (.element items)).feedAll o s = .ok last ∧
      Ends (.array items :: outer) v last := by
  rcases drives with ⟨b, rest, first, events, last, rfl, begins, run, ends⟩
  refine ⟨last, ?_, ends⟩
  rw [Tree.feedAll_cons_of_feed (Tree.feed_of_takes (.elementBegins begins))]
  exact run

/-- The spelling of a keyword is followed letter by letter. -/
theorem drives_of_keyword (o : Options) (outer : List Frame) (word : Keyword) :
    Drives o outer word.spelling word.value := by
  have long : 1 < word.spelling.length := word.one_lt_length
  cases spelling : word.spelling with
  | nil =>
      rw [spelling] at long
      cases long
  | cons b rest =>
      refine ⟨b, rest, .live outer (.keyword word 1), [], _, rfl, .keyword word (by rw [spelling]; rfl), ?_,
        .settled⟩
      have run := feedAll_keyword o outer long
      rwa [spelling] at run

/-- A literal is gathered byte by byte, and what it is read as is found only after it. -/
theorem drives_of_number {x : Binary64} (number : Number o s x) : Drives o outer s (.number x) := by
  rcases number.first with ⟨b, rest, rfl, first⟩
  rcases number.numeral with ⟨d, numeral, rounds⟩
  -- The first byte has begun the literal, and the others lengthen it.
  have fits : Fits o ((#[b] : Array UInt8).size + rest.length) :=
    number.fits.mono (by simp; omega)
  have parts : ∀ c ∈ rest, Byte.inNumber c = true := fun c mem => numeral.inNumber c (by simp [mem])
  rcases feedAll_number parts fits with ⟨literal, whole, run⟩
  have value : numberOf literal = .ok (.number x) := by
    refine numberOf_eq_ok_iff.2 ⟨x, ?_, rfl⟩
    rw [whole]
    exact Binary64.read?_eq_some_iff.2 ⟨d, numeral, rounds⟩
  exact ⟨b, rest, _, [], _, rfl, .number first (fits.mono (by simp)), run, .number value⟩

/-- A string is followed from quote to quote, with escapes as what they stand for. -/
theorem drives_of_quoted {text : Bytes} (quoted : Quoted o s text) :
    Drives o outer s (.string text) := by
  rcases feedAll_quoted outer .value quoted with ⟨inside, longer, rfl, rfl, run⟩
  exact ⟨Byte.quote, inside, _, [], _, rfl, .string, run, .settled⟩

/-- A container whose inside leads to its closing. -/
theorem drives_of_container (c : Container) {inside : Bytes} (room : outer.length < o.maxDepth)
    (run : (Tree.live outer (.inside c)).feedAll o (inside ++ [c.closing])
      = .ok (.settled (.of outer v))) :
    Drives o outer (c.opening :: inside ++ [c.closing]) v :=
  ⟨c.opening, inside ++ [c.closing], _, _, _, rfl, .container c room, run, .settled⟩

/-- A name with its colon, and the white space around it. -/
theorem feedAll_name {members : Array (Bytes × Value)} {a k b c name : Bytes} (before : Blank o a)
    (quoted : Quoted o k name) (beforeColon : Blank o b) (afterColon : Blank o c) :
    (Tree.live outer (.name members)).feedAll o (a ++ k ++ b ++ Byte.colon :: c)
      = .ok (.live (.object members name :: outer) .blank) := by
  rcases feedAll_quoted outer (.name members) quoted with ⟨inside, longer, rfl, rfl, run⟩
  have first : (Tree.live outer (.name members)).feedAll o a = .ok (.live outer (.name members)) :=
    feedAll_blank (fun d space => .nameSpace space) before
  have second : (Tree.live outer (.name members)).feedAll o (Byte.quote :: inside)
      = .ok (.live outer (.colon members longer.toList)) := by
    rw [Tree.feedAll_cons_of_feed (Tree.feed_of_takes .nameBegins)]
    exact run
  have third : (Tree.live outer (.colon members longer.toList)).feedAll o b
      = .ok (.live outer (.colon members longer.toList)) :=
    feedAll_blank (fun d space => .colonSpace space) beforeColon
  have fourth : (Tree.live outer (.colon members longer.toList)).feedAll o (Byte.colon :: c)
      = .ok (.live (.object members longer.toList :: outer) .blank) := by
    rw [Tree.feedAll_cons_of_feed (Tree.feed_of_takes .colon)]
    exact feedAll_blank (fun d space => .blankSpace space) afterColon
  exact Tree.feedAll_trans (Tree.feedAll_trans (Tree.feedAll_trans first second) third) fourth

/-- The white space after a value and the byte that follows. -/
theorem Ends.feedAll_follow (ends : Ends outer v t) {a : Bytes} (after : Blank o a)
    (follows : Byte.followsNumber b = true) (takes : (Settled.of outer v).Takes o b t' events) :
    t.feedAll o (a ++ [b]) = .ok t' := by
  rcases ends.blank after with ⟨u, run, ends⟩
  exact Tree.feedAll_trans run
    (Tree.feedAll_singleton (Tree.feed_of_takes (ends.takes (.inr follows) takes)))

/-- An element with the white space around it. -/
theorem Drives.element {items : Array Value} {a : Bytes} (drives : Drives o (.array items :: outer) s v)
    (before : Blank o a) :
    ∃ last, (Tree.live outer (.element items)).feedAll o (a ++ s) = .ok last ∧
      Ends (.array items :: outer) v last := by
  rcases drives.fromElement with ⟨last, run, ends⟩
  exact ⟨last, Tree.feedAll_trans (feedAll_blank (fun d space => .elementSpace space) before) run, ends⟩

/-- A member with the white space before and inside it. -/
theorem Drives.member {members : Array (Bytes × Value)} {a k b c name : Bytes}
    (drives : Drives o (.object members name :: outer) s v) (before : Blank o a)
    (quoted : Quoted o k name) (beforeColon : Blank o b) (afterColon : Blank o c) :
    ∃ last, (Tree.live outer (.name members)).feedAll o (a ++ k ++ b ++ Byte.colon :: c ++ s) = .ok last ∧
      Ends (.object members name :: outer) v last := by
  rcases drives.fromBlank with ⟨last, run, ends⟩
  exact ⟨last, Tree.feedAll_trans (feedAll_name before quoted beforeColon afterColon) run, ends⟩

mutual

/-- A derivation drives, inside any frames of the right number. -/
theorem drives_of_spells {depth : Nat} {s : Bytes} {v : Value} :
    Spells o depth s v → ∀ outer : List Frame, outer.length = depth → Drives o outer s v
  | .keyword word, outer, _ =>
      drives_of_keyword o outer word
  | .number number, _, _ =>
      drives_of_number number
  | .string quoted, _, _ =>
      drives_of_quoted quoted
  | .emptyArray room blank, outer, inside => by
      subst inside
      refine drives_of_container .array room ?_
      exact Tree.feedAll_trans (feedAll_blank (fun d space => .elementSpace space) blank)
        (Tree.feedAll_singleton (Tree.feed_of_takes .elementClose))
  | .array room elements, outer, inside => by
      subst inside
      exact drives_of_container .array room (closes_of_elements elements outer #[] rfl)
  | .emptyObject room blank, outer, inside => by
      subst inside
      refine drives_of_container .object room ?_
      exact Tree.feedAll_trans (feedAll_blank (fun d space => .nameSpace space) blank)
        (Tree.feedAll_singleton (Tree.feed_of_takes .nameClose))
  | .object room members, outer, inside => by
      subst inside
      exact drives_of_container .object room (closes_of_members members outer #[] rfl)

/-- Elements and the bracket after them close the array, with the elements before them. -/
theorem closes_of_elements {depth : Nat} {s : Bytes} {vs : List Value} :
    Elements o depth s vs → ∀ (outer : List Frame) (items : Array Value), outer.length + 1 = depth →
      (Tree.live outer (.element items)).feedAll o (s ++ [Byte.closeBracket])
        = .ok (.settled (.of outer (.array (items.toList ++ vs))))
  | .one before value after, outer, items, inside => by
      rcases (drives_of_spells value (.array items :: outer) inside).element before with ⟨last, run, ends⟩
      have close := ends.feedAll_follow after (by decide) .closeArray
      rw [Array.toList_push] at close
      rw [List.append_assoc]
      exact Tree.feedAll_trans run close
  | @Elements.more _ _ _ _ _ _ v _ before value after others, outer, items, inside => by
      -- After the comma the array goes on with this element among those before it.
      rcases (drives_of_spells value (.array items :: outer) inside).element before with ⟨last, run, ends⟩
      have next := ends.feedAll_follow after (by decide) .nextElement
      have close := closes_of_elements others outer (items.push v) inside
      have all := Tree.feedAll_trans (Tree.feedAll_trans run next) close
      rw [Array.toList_push] at all
      simpa only [List.append_assoc, List.cons_append, List.nil_append] using all

/-- Members and the brace after them close the object, with the members before them. -/
theorem closes_of_members {depth : Nat} {s : Bytes} {ms : List (Bytes × Value)} :
    Members o depth s ms → ∀ (outer : List Frame) (others : Array (Bytes × Value)),
      outer.length + 1 = depth →
      (Tree.live outer (.name others)).feedAll o (s ++ [Byte.closeBrace])
        = .ok (.settled (.of outer (.object (others.toList ++ ms))))
  | @Members.one _ _ _ _ _ _ _ _ name _ before quoted beforeColon afterColon value after, outer, others,
      inside => by
      obtain ⟨last, run, ends⟩ := (drives_of_spells value (.object others name :: outer) inside).member
        before quoted beforeColon afterColon
      have close := ends.feedAll_follow after (by decide) .closeObject
      have all := Tree.feedAll_trans run close
      rw [Array.toList_push] at all
      simpa only [List.append_assoc, List.cons_append] using all
  | @Members.more _ _ _ _ _ _ _ _ _ name v _ before quoted beforeColon afterColon value after rest, outer,
      others, inside => by
      obtain ⟨last, run, ends⟩ := (drives_of_spells value (.object others name :: outer) inside).member
        before quoted beforeColon afterColon
      have next := ends.feedAll_follow after (by decide) .nextMember
      have close := closes_of_members rest outer (others.push (name, v)) inside
      have all := Tree.feedAll_trans (Tree.feedAll_trans run next) close
      rw [Array.toList_push] at all
      simpa only [List.append_assoc, List.cons_append, List.nil_append] using all

end

/-! ## Documents -/

/-- A document is accepted to its end, and its value is the one derived. -/
theorem accepts_of_document (document : Document o s v) :
    ∃ t, Tree.feedAll o .empty s = .ok t ∧ t.finish = .ok v := by
  rcases document with ⟨before, value, after, rfl, blankBefore, spells, blankAfter⟩
  -- Three runs, one after another: white space, the value, white space.
  rcases (drives_of_spells spells [] rfl).fromBlank with ⟨last, run, ends⟩
  rcases ends.blank blankAfter with ⟨t, runAfter, ends⟩
  have start : Tree.feedAll o .empty before = .ok .empty :=
    feedAll_blank (fun b space => .blankSpace space) blankBefore
  exact ⟨t, Tree.feedAll_trans (Tree.feedAll_trans start run) runAfter, ends.finish⟩

/-- Sessions accept the documents of the grammar and no other input, and decode each to the value that the
grammar derives. -/
theorem decode_eq_ok_iff_document (o : Options) (s : Bytes) (v : Value) :
    (Session.start o).decode s = .ok v ↔ Document o s v := by
  rw [Session.decode_eq_ok_iff_run]
  -- What is accepted has been read, and what is derived drives.
  constructor
  · rintro ⟨t, run, ended⟩
    exact document_of_reads (reads_of_feedAll run) ended
  · intro document
    exact accepts_of_document document

end JsonStream.Grammar
