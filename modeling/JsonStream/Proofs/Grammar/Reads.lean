import JsonStream.Proofs.Binary64.Nearest
import JsonStream.Proofs.Decimal.Reading
import JsonStream.Proofs.Tree.Takes

/-!
# What has been read

`Reads o t s` says that the bytes `s` are what a tree `t` has been fed, cut up by the grammar: every frame
accounts for its bracket, its finished children and their commas, and the focus for the beginning of the
value in progress. The relation holds of the empty tree and is kept by every byte, so it holds of every
run; at the end of a run it is a derivation.

- `Row`, `MemberRow` — finished children with the commas after them
- `Leads` — the text before the value in progress
- `Reads` — the text of a whole tree
- `reads_of_takes`, `reads_of_feedAll` — one byte, and a run
- `document_of_reads` — the end of the input
-/

namespace JsonStream

/-- The numbers that literals are read as are those that the grammar gives them. -/
theorem Binary64.read?_eq_some_iff {s : Bytes} {x : Binary64} :
    read? s = some x ↔ ∃ d, Decimal.Numeral s d ∧ d.RoundsTo x := by
  simp only [read?, Option.bind_eq_some_iff, Decimal.read?_eq_some_iff, Decimal.toBinary64?_eq_some_iff]

/-- A literal has a value exactly if it is read as a number. -/
theorem numberOf_eq_ok_iff {literal : Array UInt8} {v : Value} :
    numberOf literal = .ok v ↔ ∃ x, Binary64.read? literal.toList = some x ∧ v = .number x := by
  unfold numberOf
  cases Binary64.read? literal.toList with
  | none =>
      simp
  | some x =>
      simp [eq_comm]

/-- A literal without a value is refused as a whole. -/
theorem numberOf_eq_error_iff {literal : Array UInt8} {fault : Fault} :
    numberOf literal = .error fault ↔
      Binary64.read? literal.toList = none ∧ fault = .invalidNumber literal.toList := by
  unfold numberOf
  cases Binary64.read? literal.toList with
  | none =>
      simp [eq_comm]
  | some x =>
      simp

namespace Grammar

variable {o : Options} {depth : Nat}

/-! ## Pieces of text -/

theorem Blank.nil : Blank o [] := by
  intro b mem
  cases mem

theorem Blank.cons_iff {b : UInt8} {s : Bytes} : Blank o (b :: s) ↔ o.isSpace b = true ∧ Blank o s :=
  List.forall_mem_cons

theorem Blank.append_iff {s t : Bytes} : Blank o (s ++ t) ↔ Blank o s ∧ Blank o t :=
  List.forall_mem_append

theorem Blank.append {s t : Bytes} (left : Blank o s) (right : Blank o t) : Blank o (s ++ t) :=
  Blank.append_iff.2 ⟨left, right⟩

theorem Blank.singleton {b : UInt8} (space : o.isSpace b = true) : Blank o [b] := by
  intro c mem
  obtain rfl := List.mem_singleton.1 mem
  exact space

theorem Fits.zero : Fits o 0 := fun limit _ => Nat.zero_le limit

/-- Contents of strings may be put one after another. -/
theorem Content.append {s t text more : Bytes} (first : Content s text) (second : Content t more) :
    Content (s ++ t) (text ++ more) := by
  induction first with
  | nil =>
      exact second
  | plain notQuote notBackslash _ ih =>
      exact .plain notQuote notBackslash ih
  | escape decoded _ ih =>
      exact .escape decoded ih

/-- One more byte of the text, plain or by an escape. -/
theorem Content.push {s t : Bytes} {text : Array UInt8} {b : UInt8} (first : Content s text.toList)
    (last : Content t [b]) : Content (s ++ t) (text.push b).toList := by
  rw [Array.toList_push]
  exact first.append last

/-! ## Finished children -/

inductive Row (o : Options) (depth : Nat) : Bytes → List Value → Prop
  | nil : Row o depth [] []
  | snoc {r a s b : Bytes} {items : List Value} {v : Value} (row : Row o depth r items)
      (before : Blank o a) (value : Spells o depth s v) (after : Blank o b) :
      Row o depth (r ++ (a ++ s ++ b ++ [Byte.comma])) (items ++ [v])

inductive MemberRow (o : Options) (depth : Nat) : Bytes → List (Bytes × Value) → Prop
  | nil : MemberRow o depth [] []
  | snoc {r a k b c s d name : Bytes} {members : List (Bytes × Value)} {v : Value}
      (row : MemberRow o depth r members) (before : Blank o a) (quoted : Quoted o k name)
      (beforeColon : Blank o b) (afterColon : Blank o c) (value : Spells o depth s v)
      (after : Blank o d) :
      MemberRow o depth (r ++ (a ++ k ++ b ++ Byte.colon :: (c ++ s ++ d ++ [Byte.comma])))
        (members ++ [(name, v)])

/-- One more element, with the comma after it. -/
theorem Row.push {r a s b : Bytes} {items : Array Value} {v : Value} (row : Row o depth r items.toList)
    (before : Blank o a) (value : Spells o depth s v) (after : Blank o b) :
    Row o depth (r ++ (a ++ s ++ b ++ [Byte.comma])) (items.push v).toList := by
  rw [Array.toList_push]
  exact row.snoc before value after

theorem MemberRow.push {r a k b c s d name : Bytes} {members : Array (Bytes × Value)} {v : Value}
    (row : MemberRow o depth r members.toList) (before : Blank o a) (quoted : Quoted o k name)
    (beforeColon : Blank o b) (afterColon : Blank o c) (value : Spells o depth s v)
    (after : Blank o d) :
    MemberRow o depth (r ++ (a ++ k ++ b ++ Byte.colon :: (c ++ s ++ d ++ [Byte.comma])))
      (members.push (name, v)).toList := by
  rw [Array.toList_push]
  exact row.snoc before quoted beforeColon afterColon value after

theorem Row.eq_nil {r : Bytes} (row : Row o depth r []) : r = [] := by
  -- An index that is a literal list would keep `cases` from refuting `snoc`.
  generalize none : ([] : List Value) = items at row
  cases row with
  | nil =>
      rfl
  | snoc row before value after =>
      simp at none

theorem MemberRow.eq_nil {r : Bytes} (row : MemberRow o depth r []) : r = [] := by
  generalize none : ([] : List (Bytes × Value)) = members at row
  cases row with
  | nil =>
      rfl
  | snoc row before quoted beforeColon afterColon value after =>
      simp at none

/-- The last elements complete a row. -/
theorem Row.elements {r s : Bytes} {items vs : List Value} (row : Row o depth r items)
    (rest : Elements o depth s vs) : Elements o depth (r ++ s) (items ++ vs) := by
  -- The last element of the row becomes the first of the rest, so the induction is on the row with any rest.
  induction row generalizing s vs with
  | nil =>
      exact rest
  | snoc row before value after ih =>
      have longer := ih (.more before value after rest)
      simpa using longer

/-- The last members complete a row. -/
theorem MemberRow.members {r s : Bytes} {members ms : List (Bytes × Value)}
    (row : MemberRow o depth r members) (rest : Members o depth s ms) :
    Members o depth (r ++ s) (members ++ ms) := by
  induction row generalizing s ms with
  | nil =>
      exact rest
  | snoc row before quoted beforeColon afterColon value after ih =>
      have longer := ih (.more before quoted beforeColon afterColon value after rest)
      simpa using longer

/-! ## Before the value in progress -/

/-- The text from the start of the document to the value in progress inside some frames. -/
inductive Leads (o : Options) : List Frame → Bytes → Prop
  | document {s : Bytes} (blank : Blank o s) : Leads o [] s
  | array {outer : List Frame} {items : Array Value} {p r a : Bytes} (outside : Leads o outer p)
      (room : outer.length < o.maxDepth) (row : Row o (outer.length + 1) r items.toList)
      (blank : Blank o a) : Leads o (.array items :: outer) (p ++ Byte.openBracket :: (r ++ a))
  | object {outer : List Frame} {members : Array (Bytes × Value)} {name p r a k b c : Bytes}
      (outside : Leads o outer p) (room : outer.length < o.maxDepth)
      (row : MemberRow o (outer.length + 1) r members.toList) (blank : Blank o a)
      (quoted : Quoted o k name) (beforeColon : Blank o b) (afterColon : Blank o c) :
      Leads o (.object members name :: outer)
        (p ++ Byte.openBrace :: (r ++ a) ++ k ++ b ++ Byte.colon :: c)

inductive LeadsToName (o : Options) (outer : List Frame) (members : Array (Bytes × Value)) :
    Bytes → Prop
  | intro {p r a : Bytes} (outside : Leads o outer p) (room : outer.length < o.maxDepth)
      (row : MemberRow o (outer.length + 1) r members.toList) (blank : Blank o a) :
      LeadsToName o outer members (p ++ Byte.openBrace :: (r ++ a))

def LeadsTo (o : Options) (outer : List Frame) : Role → Bytes → Prop
  | .value, s => Leads o outer s
  | .name members, s => LeadsToName o outer members s

/-- White space before a value changes nothing about where the text leads. -/
theorem Leads.space {outer : List Frame} {s : Bytes} {b : UInt8} (lead : Leads o outer s)
    (space : o.isSpace b = true) : Leads o outer (s ++ [b]) := by
  -- The byte lengthens the white space that the text ends with.
  cases lead with
  | document blank =>
      exact .document (blank.append (.singleton space))
  | array outside room row blank =>
      have longer := Leads.array outside room row (blank.append (.singleton space))
      simpa using longer
  | object outside room row blank quoted beforeColon afterColon =>
      have longer := Leads.object outside room row blank quoted beforeColon
        (afterColon.append (.singleton space))
      simpa using longer

theorem LeadsToName.space {outer : List Frame} {members : Array (Bytes × Value)} {s : Bytes} {b : UInt8}
    (lead : LeadsToName o outer members s) (space : o.isSpace b = true) :
    LeadsToName o outer members (s ++ [b]) := by
  cases lead with
  | intro outside room row blank =>
      have longer := LeadsToName.intro outside room row (blank.append (.singleton space))
      simpa using longer

/-- After the colon the value of a member is to come. -/
theorem LeadsToName.colon {outer : List Frame} {members : Array (Bytes × Value)} {name p k b : Bytes}
    (lead : LeadsToName o outer members p) (quoted : Quoted o k name) (blank : Blank o b) :
    Leads o (.object members name :: outer) (p ++ k ++ b ++ [Byte.colon]) := by
  cases lead with
  | intro outside room row before =>
      exact .object outside room row before quoted blank .nil

/-! ## Whole trees -/

inductive Reads (o : Options) : Tree → Bytes → Prop
  | settled {outer : List Frame} {place : Settled} {v : Value} {p s b : Bytes}
      (place_eq : place = .of outer v) (lead : Leads o outer p) (value : Spells o outer.length s v)
      (after : Blank o b) : Reads o (.settled place) (p ++ s ++ b)
  | blank {outer : List Frame} {p : Bytes} (lead : Leads o outer p) : Reads o (.live outer .blank) p
  | keyword {outer : List Frame} {word : Keyword} {seen : Nat} {p : Bytes} (lead : Leads o outer p)
      (begun : 0 < seen) (more : seen < word.spelling.length) :
      Reads o (.live outer (.keyword word seen)) (p ++ word.spelling.take seen)
  | number {outer : List Frame} {literal : Array UInt8} {p : Bytes} (lead : Leads o outer p)
      (first : ∃ b rest, literal.toList = b :: rest ∧ Byte.startsNumber b = true)
      (fits : Fits o literal.size) : Reads o (.live outer (.number literal)) (p ++ literal.toList)
  | string {outer : List Frame} {role : Role} {text : Array UInt8} {p s : Bytes}
      (lead : LeadsTo o outer role p) (content : Content s text.toList) (fits : Fits o text.size) :
      Reads o (.live outer (.string role text)) (p ++ Byte.quote :: s)
  | escape {outer : List Frame} {role : Role} {text : Array UInt8} {p s : Bytes}
      (lead : LeadsTo o outer role p) (content : Content s text.toList) (fits : Fits o text.size) :
      Reads o (.live outer (.escape role text)) (p ++ Byte.quote :: s ++ [Byte.backslash])
  | element {outer : List Frame} {items : Array Value} {p : Bytes}
      (lead : Leads o (.array items :: outer) p) : Reads o (.live outer (.element items)) p
  | name {outer : List Frame} {members : Array (Bytes × Value)} {p : Bytes}
      (lead : LeadsToName o outer members p) : Reads o (.live outer (.name members)) p
  | colon {outer : List Frame} {members : Array (Bytes × Value)} {name p k b : Bytes}
      (lead : LeadsToName o outer members p) (quoted : Quoted o k name) (blank : Blank o b) :
      Reads o (.live outer (.colon members name)) (p ++ k ++ b)

theorem reads_empty : Reads o .empty [] :=
  .blank (.document .nil)

end Grammar

/-! ## One byte -/

namespace Settled

variable {outer outside : List Frame} {v : Value}

/-- A value that ended as an element ended inside an array. -/
theorem of_eq_element {items : Array Value} (h : of outer v = element outside items) :
    ∃ others, outer = .array others :: outside ∧ items = others.push v := by
  cases outer with
  | nil =>
      cases h
  | cons f rest =>
      cases f with
      | array others =>
          cases h
          exact ⟨others, rfl, rfl⟩
      | object members name =>
          cases h

/-- A value that ended as a member ended inside an object. -/
theorem of_eq_member {members : Array (Bytes × Value)} (h : of outer v = member outside members) :
    ∃ others name, outer = .object others name :: outside ∧ members = others.push (name, v) := by
  cases outer with
  | nil =>
      cases h
  | cons f rest =>
      cases f with
      | array items =>
          cases h
      | object others name =>
          cases h
          exact ⟨others, name, rfl, rfl⟩

/-- A value that is the whole document has no frames around it. -/
theorem of_eq_document {w : Value} (h : of outer v = document w) : outer = [] ∧ w = v := by
  cases outer with
  | nil =>
      cases h
      exact ⟨rfl, rfl⟩
  | cons f rest =>
      cases f with
      | array items =>
          cases h
      | object members name =>
          cases h

end Settled

namespace Grammar

variable {o : Options} {outer : List Frame} {t t' : Tree} {b : UInt8} {events : List Event}
  {p s a : Bytes} {v : Value}

/-- The first byte of a value leads into it. -/
theorem reads_of_begins (lead : Leads o outer p) (begins : Begins o outer b t events) :
    Reads o t (p ++ [b]) := by
  -- The text before stays what it is, and the value has its first byte.
  cases begins with
  | container c room =>
      cases c with
      | array =>
          exact .element (.array lead room .nil .nil)
      | object =>
          exact .name (.intro lead room .nil .nil)
  | string =>
      have noText : LeadsTo o outer .value p := lead
      exact .string noText .nil .zero
  | number first fits =>
      exact .number lead ⟨b, [], rfl, first⟩ fits
  | keyword word first =>
      have head : word.spelling.take 1 = [b] := by
        rw [List.take_one, first, Option.toList_some]
      have result := Reads.keyword lead Nat.one_pos word.one_lt_length
      rwa [head] at result

/-- A byte after a value, with what it closes or leads to. -/
theorem reads_of_settled_takes (lead : Leads o outer p) (value : Spells o outer.length s v)
    (after : Blank o a) (takes : (Settled.of outer v).Takes o b t events) :
    Reads o t (p ++ s ++ a ++ [b]) := by
  -- The cases are those of the byte; which frame the value ended in follows from the place.
  generalize place_eq : Settled.of outer v = place at takes
  cases takes with
  | space space =>
      have result := Reads.settled place_eq.symm lead value (after.append (.singleton space))
      simpa using result
  | nextElement =>
      -- A comma puts the element into the row of its array.
      rcases Settled.of_eq_element place_eq with ⟨others, rfl, rfl⟩
      cases lead with
      | array outside room row blank =>
          have result := Reads.element (.array outside room (row.push blank value after) .nil)
          simpa only [List.append_assoc, List.cons_append, List.append_nil] using result
  | closeArray =>
      rcases Settled.of_eq_element place_eq with ⟨others, rfl, rfl⟩
      cases lead with
      | array outside room row blank =>
          -- The row and the last element are the elements of the whole array.
          have elements := row.elements (.one blank value after)
          rw [← Array.toList_push] at elements
          have result := Reads.settled rfl outside (.array room elements) .nil
          simpa using result
  | nextMember =>
      rcases Settled.of_eq_member place_eq with ⟨others, name, rfl, rfl⟩
      cases lead with
      | object outside room row blank quoted beforeColon afterColon =>
          have longer := row.push blank quoted beforeColon afterColon value after
          have result := Reads.name (.intro outside room longer .nil)
          simpa only [List.append_assoc, List.cons_append, List.append_nil] using result
  | closeObject =>
      rcases Settled.of_eq_member place_eq with ⟨others, name, rfl, rfl⟩
      cases lead with
      | object outside room row blank quoted beforeColon afterColon =>
          -- Likewise the members of the whole object.
          have members := row.members (.one blank quoted beforeColon afterColon value after)
          rw [← Array.toList_push] at members
          have result := Reads.settled rfl outside (.object room members) .nil
          simpa using result

/-- A number that can end is a number of the grammar. -/
theorem spells_of_numberOf {literal : Array UInt8} {depth : Nat}
    (first : ∃ b rest, literal.toList = b :: rest ∧ Byte.startsNumber b = true)
    (fits : Fits o literal.size) (value : numberOf literal = .ok v) :
    Spells o depth literal.toList v := by
  rcases numberOf_eq_ok_iff.1 value with ⟨x, found, rfl⟩
  exact .number ⟨first, Binary64.read?_eq_some_iff.1 found, by simpa using fits⟩

/-- What has been read goes on by the byte that is taken. -/
theorem reads_of_takes (reads : Reads o t s) (takes : t.Takes o b t' events) :
    Reads o t' (s ++ [b]) := by
  -- One case for each rule; the text so far is that of the one constructor of `Reads` for its place.
  cases takes with
  | settled rest =>
      cases reads with
      | settled place_eq lead value after =>
          subst place_eq
          exact reads_of_settled_takes lead value after rest
  | blankSpace space =>
      cases reads with
      | blank lead =>
          exact .blank (lead.space space)
  | blankBegins begins =>
      cases reads with
      | blank lead =>
          exact reads_of_begins lead begins
  | @keywordNext outer word seen b next more =>
      cases reads with
      | keyword lead begun less =>
          have result := Reads.keyword lead (Nat.succ_pos seen) (by omega : seen + 1 < word.spelling.length)
          rw [List.take_add_one, next, ← List.append_assoc] at result
          exact result
  | @keywordEnd outer word seen b next last =>
      cases reads with
      | keyword lead begun less =>
          -- The letters before and the last byte are the whole word.
          have whole : word.spelling = word.spelling.take seen ++ [b] := by
            calc
              word.spelling = word.spelling.take (seen + 1) := by rw [last, List.take_length]
              _ = word.spelling.take seen ++ [b] := by rw [List.take_add_one, next]; rfl
          have result := Reads.settled rfl lead (.keyword word) .nil
          rw [whole, List.append_nil, ← List.append_assoc] at result
          exact result
  | @numberNext outer literal b part fits =>
      cases reads with
      | number lead first less =>
          rcases first with ⟨c, rest, literal_eq, starts⟩
          have longer : (literal.push b).toList = c :: (rest ++ [b]) := by
            rw [Array.toList_push, literal_eq]
            rfl
          have result := Reads.number lead ⟨c, rest ++ [b], longer, starts⟩ (by simpa using fits)
          rw [Array.toList_push, ← List.append_assoc] at result
          exact result
  | numberEnd ends value rest =>
      cases reads with
      | number lead first fits =>
          -- The byte after a number does what it does after any value.
          have result := reads_of_settled_takes lead (spells_of_numberOf first fits value) .nil rest
          simpa using result
  | @stringEnd outer role text =>
      cases reads with
      | string lead content fits =>
          have quoted := Quoted.intro content (by simpa using fits)
          cases role with
          | value =>
              have result := Reads.settled rfl lead (.string quoted) .nil
              simpa [endString] using result
          | name members =>
              have result := Reads.colon lead quoted .nil
              simpa [endString] using result
  | stringEscape =>
      cases reads with
      | string lead content fits =>
          exact .escape lead content fits
  | @stringPlain outer role text b notQuote notBackslash fits =>
      cases reads with
      | string lead content less =>
          have longer := content.push (.plain notQuote notBackslash .nil)
          have result := Reads.string lead longer (by simpa using fits)
          rw [List.append_assoc, List.cons_append]
          exact result
  | @escape outer role text b c decoded fits =>
      cases reads with
      | escape lead content less =>
          have longer := content.push (.escape decoded .nil)
          have result := Reads.string lead longer (by simpa using fits)
          rw [List.append_assoc, List.append_assoc, List.cons_append]
          exact result
  | elementSpace space =>
      cases reads with
      | element lead =>
          exact .element (lead.space space)
  | elementClose =>
      cases reads with
      | element lead =>
          cases lead with
          | array outside room row blank =>
              obtain rfl := row.eq_nil
              have result := Reads.settled rfl outside (.emptyArray room blank) .nil
              simpa using result
  | elementBegins begins =>
      cases reads with
      | element lead =>
          exact reads_of_begins lead begins
  | nameSpace space =>
      cases reads with
      | name lead =>
          exact .name (lead.space space)
  | nameBegins =>
      cases reads with
      | name lead =>
          have noText : LeadsTo o _ (.name _) s := lead
          exact .string noText .nil .zero
  | nameClose =>
      cases reads with
      | name lead =>
          cases lead with
          | intro outside room row blank =>
              obtain rfl := row.eq_nil
              have result := Reads.settled rfl outside (.emptyObject room blank) .nil
              simpa using result
  | colonSpace space =>
      cases reads with
      | colon lead quoted blank =>
          have result := Reads.colon lead quoted (blank.append (.singleton space))
          simpa using result
  | colon =>
      cases reads with
      | colon lead quoted blank =>
          exact .blank (lead.colon quoted blank)

/-! ## Runs -/

/-- From a text that a tree has been fed to a longer one, byte by byte. -/
theorem reads_of_feedAll_from {bytes : Bytes} (reads : Reads o t s)
    (run : t.feedAll o bytes = .ok t') : Reads o t' (s ++ bytes) := by
  induction bytes generalizing t s with
  | nil =>
      cases run
      rwa [List.append_nil]
  | cons b rest ih =>
      rcases Tree.feedAll_cons_eq_ok_iff.1 run with ⟨u, events, taken, run⟩
      have result := ih (reads_of_takes reads (Tree.takes_of_feed taken)) run
      rwa [List.append_assoc] at result

/-- A tree reads what it has been fed from the start. -/
theorem reads_of_feedAll (run : Tree.feedAll o .empty s = .ok t) : Reads o t s :=
  reads_of_feedAll_from reads_empty run

/-- Where the input may end, what has been read is a document. -/
theorem document_of_reads (reads : Reads o t s) (ended : t.finish = .ok v) : Document o s v := by
  -- Only a settled document and a number outside all containers may be the end of the input.
  cases reads with
  | @settled outer place w p s a place_eq lead value after =>
      cases place with
      | document d =>
          cases ended
          rcases Settled.of_eq_document place_eq.symm with ⟨rfl, rfl⟩
          cases lead with
          | document blank =>
              exact ⟨p, s, a, rfl, blank, value, after⟩
      | element outside items =>
          cases ended
      | member outside members =>
          cases ended
  | @number outer literal p lead first fits =>
      cases lead with
      | document blank =>
          exact ⟨p, literal.toList, [], by simp, blank, spells_of_numberOf first fits ended, .nil⟩
      | array outside room row blank =>
          cases ended
      | object outside room row blank quoted beforeColon afterColon =>
          cases ended
  | _ =>
      simp [Tree.finish] at ended

end Grammar

end JsonStream
