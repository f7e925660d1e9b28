import JsonStream.Proofs.Grammar.Accepts
import JsonStream.Proofs.Grammar.Depth
import JsonStream.Proofs.Text.Redecoding
import JsonStream.Proofs.Utf8.Ascii
import JsonStream.Session.Run

/-!
# Exchange text and plain text decode alike

Exchange text escapes every control character, those without a letter by their number, and there is no such
escape in the grammar of documents. Where a value has none of these characters, its exchange text is decoded
to the same value as its plain text. Where it has some, decoding stops at the first of them.

- `Exchangeable` — texts that are written without numbered escapes
- `Stumbles` — runs that come to a numbered escape
- `stumbles_write` — values with a text that is not exchangeable, by recursion over the value
- `Session.exchange_agrees` — decoding exchange text
-/

namespace JsonStream.Text

open Grammar (Content feedAll_string)
open Utf8 (encode lossy)

variable {o : Options} {c : Char} {cs : List Char} {text s r : Bytes} {t u : Tree}

/-! ## Characters without a letter -/

/-- Control characters other than those with an escape of their own do not occur in the text. -/
def Exchangeable (text : Bytes) : Prop :=
  ∀ b ∈ text, b < 0x20 →
    b = Byte.backspace ∨ b = Byte.tab ∨ b = Byte.lineFeed ∨ b = Byte.formFeed ∨ b = Byte.carriageReturn

def Numbered (c : Char) : Prop :=
  c.toNat < 0x20 ∧ Escape.letter? c = none

/-- The control characters without an escape of their own, each one tried. -/
theorem letter?_control : ∀ n : Fin 32, Escape.letter? (Char.ofNat n) = none ↔
    ¬ (UInt8.ofNat n = Byte.backspace ∨ UInt8.ofNat n = Byte.tab ∨ UInt8.ofNat n = Byte.lineFeed ∨
      UInt8.ofNat n = Byte.formFeed ∨ UInt8.ofNat n = Byte.carriageReturn) := by
  decide

/-- What is said of the bytes is said of the characters. -/
theorem exchangeable_iff : Exchangeable text ↔ ∀ c ∈ lossy text, ¬ Numbered c := by
  constructor
  · rintro exchangeable c mem ⟨control, none⟩
    have byte := (Utf8.mem_lossy_iff (by omega)).1 mem
    have small : UInt8.ofNat c.toNat < 0x20 := by
      rw [UInt8.lt_iff_toNat_lt, UInt8.toNat_ofNat', Nat.mod_eq_of_lt (by omega)]
      exact control
    have sort := letter?_control ⟨c.toNat, control⟩
    rw [Char.ofNat_toNat] at sort
    exact sort.1 none (exchangeable _ byte small)
  · intro noneNumbered b mem control
    have small : b.toNat < 0x20 := UInt8.lt_iff_toNat_lt.1 control
    have code := Utf8.toNat_ofNat_byte b
    have read : Char.ofNat b.toNat ∈ lossy text := by
      rw [Utf8.mem_lossy_iff (by omega), code, UInt8.ofNat_toNat]
      exact mem
    have sort := letter?_control ⟨b.toNat, small⟩
    rw [UInt8.ofNat_toNat] at sort
    by_contra other
    exact noneNumbered _ read ⟨by omega, sort.2 other⟩

/-- A character that exchange text does not number is read back from what is written for it. -/
theorem content_exchange (notNumbered : ¬ Numbered c) :
    Content (encode (Dialect.exchange.char c)) (String.utf8EncodeChar c) := by
  simp only [Dialect.exchange, escaped]
  cases found : Escape.letter? c with
  | some letter =>
      exact content_escape found
  | none =>
      have printable : ¬ c.toNat < 0x20 := fun control => notNumbered ⟨control, found⟩
      simp only [controlByNumber, if_neg printable]
      exact content_unescaped found

/-- Text without numbered characters is read back from exchange text. -/
theorem readable_exchange (exchangeable : Exchangeable text) : Dialect.exchange.Readable text :=
  fun c mem => content_exchange (exchangeable_iff.1 exchangeable c mem)

/-! ## Numbered escapes -/

/-- A run comes to a backslash inside a string, and the letter of numbered escapes is next. -/
def Stumbles (o : Options) (t : Tree) (s : Bytes) : Prop :=
  ∃ before rest outer role text, s = before ++ Byte.lowerU :: rest ∧
    t.feedAll o before = .ok (.live outer (.escape role text))

theorem Stumbles.append (stumbles : Stumbles o t s) (r : Bytes) : Stumbles o t (s ++ r) := by
  rcases stumbles with ⟨before, rest, outer, role, text, rfl, run⟩
  exact ⟨before, rest ++ r, outer, role, text, by simp, run⟩

/-- A run that begins well may stumble later. -/
theorem Stumbles.after (run : t.feedAll o r = .ok u) (stumbles : Stumbles o u s) : Stumbles o t (r ++ s) := by
  rcases stumbles with ⟨before, rest, outer, role, text, rfl, later⟩
  exact ⟨r ++ before, rest, outer, role, text, by simp, Tree.feedAll_trans run later⟩

theorem Stumbles.cons {b : UInt8} {events : List Event} (takes : t.Takes o b u events)
    (stumbles : Stumbles o u s) : Stumbles o t (b :: s) :=
  Stumbles.after (r := [b]) (Tree.feedAll_singleton (Tree.feed_of_takes takes)) stumbles

/-- The characters of a string, of which one is written by its number. -/
theorem stumbles_chars (unlimited : o.maxTokenLength = none) (numbered : ∃ c ∈ cs, Numbered c)
    (outer : List Frame) (role : Role) (text : Array UInt8) :
    Stumbles o (.live outer (.string role text)) (encode (cs.flatMap Dialect.exchange.char)) := by
  induction cs generalizing text with
  | nil =>
      rcases numbered with ⟨c, mem, -⟩
      cases mem
  | cons c rest ih =>
      rw [List.flatMap_cons, Utf8.encode_append]
      by_cases here : Numbered c
      · have written : Dialect.exchange.char c =
            '\\' :: 'u' :: '0' :: '0' :: Byte.hex c.toNat.toUInt8 := by
          simp only [Dialect.exchange, escaped, here.2, controlByNumber, if_pos here.1]
        have begun : (Tree.live outer (.string role text)).feedAll o [Byte.backslash] =
            .ok (.live outer (.escape role text)) :=
          Tree.feedAll_singleton (Tree.feed_of_takes .stringEscape)
        refine Stumbles.append ⟨[Byte.backslash], encode ('0' :: '0' :: Byte.hex c.toNat.toUInt8), outer, role,
          text, ?_, begun⟩ _
        rw [written]
        rfl
      · have later : ∃ d ∈ rest, Numbered d := by
          rcases numbered with ⟨d, mem, isNumbered⟩
          rcases List.mem_cons.1 mem with rfl | mem
          · exact absurd isNumbered here
          · exact ⟨d, mem, isNumbered⟩
        rcases feedAll_string (content_exchange here) (fits_of_unlimited unlimited _) with ⟨longer, -, run⟩
        exact .after run (ih later longer)

/-- A string with a numbered character stumbles at the first of them. -/
theorem stumbles_string (unlimited : o.maxTokenLength = none) (odd : ¬ Exchangeable text)
    (outer : List Frame) (role : Role) :
    ∃ inside, encode (Dialect.exchange.string text) = Byte.quote :: inside ∧
      Stumbles o (.live outer (.string role #[])) inside := by
  have numbered : ∃ c ∈ lossy text, Numbered c := by
    by_contra none
    exact odd (exchangeable_iff.2 fun c mem isNumbered => none ⟨c, mem, isNumbered⟩)
  refine ⟨_, encode_string Dialect.exchange text, ?_⟩
  exact (stumbles_chars unlimited numbered outer role #[]).append _

/-! ## Values -/

theorem writeItems_cons_eq (d : Dialect) (v : Value) (rest : List Value) :
    d.writeItems [] (v :: rest) = d.write v ++ d.writeItems [','] rest := by
  simp [Dialect.writeItems]

theorem writeMembers_cons_eq (d : Dialect) (name : Bytes) (v : Value) (rest : List (Bytes × Value)) :
    d.writeMembers [] ((name, v) :: rest) =
      d.string name ++ ':' :: (d.write v ++ d.writeMembers [','] rest) := by
  simp [Dialect.writeMembers]

def BeginsStumbling (o : Options) (outer : List Frame) (s : Bytes) : Prop :=
  ∃ b rest first events, s = b :: rest ∧ Begins o outer b first events ∧ Stumbles o first rest

/-- Where a value is to come, a text that begins a value and stumbles in it stumbles. -/
theorem BeginsStumbling.fromBlank {outer : List Frame} (begins : BeginsStumbling o outer s) :
    Stumbles o (.live outer .blank) s := by
  rcases begins with ⟨b, rest, first, events, rfl, begins, stumbles⟩
  exact .cons (.blankBegins begins) stumbles

theorem BeginsStumbling.fromElement {outer : List Frame} {items : Array Value}
    (begins : BeginsStumbling o (.array items :: outer) s) : Stumbles o (.live outer (.element items)) s := by
  rcases begins with ⟨b, rest, first, events, rfl, begins, stumbles⟩
  exact .cons (.elementBegins begins) stumbles

section

variable {v : Value} (outer : List Frame)

/-- An element that is written without numbered escapes is read, with the comma after it. -/
theorem feedAll_element_comma (unlimited : o.maxTokenLength = none)
    (exchangeable : ∀ text ∈ v.texts, Exchangeable text) (room : outer.length + 1 + v.height ≤ o.maxDepth)
    (before : Array Value) :
    (Tree.live outer (.element before)).feedAll o (encode (Dialect.exchange.write v) ++ [Byte.comma]) =
      .ok (.live outer (.element (before.push v.repaired))) := by
  have spells := spells_write unlimited (outer.length + 1) v
    (fun text mem => readable_exchange (exchangeable text mem)) room
  rcases (Grammar.drives_of_spells spells (.array before :: outer) rfl).fromElement with ⟨last, run, ends⟩
  exact Tree.feedAll_trans run (ends.feedAll_follow .nil (by decide) .nextElement)

/-- So is the value of a member. -/
theorem feedAll_member_comma (unlimited : o.maxTokenLength = none)
    (exchangeable : ∀ text ∈ v.texts, Exchangeable text) (room : outer.length + 1 + v.height ≤ o.maxDepth)
    (before : Array (Bytes × Value)) (name : Bytes) :
    (Tree.live (.object before name :: outer) .blank).feedAll o
        (encode (Dialect.exchange.write v) ++ [Byte.comma]) =
      .ok (.live outer (.name (before.push (name, v.repaired)))) := by
  have spells := spells_write unlimited (outer.length + 1) v
    (fun text mem => readable_exchange (exchangeable text mem)) room
  rcases (Grammar.drives_of_spells spells (.object before name :: outer) rfl).fromBlank with ⟨last, run, ends⟩
  exact Tree.feedAll_trans run (ends.feedAll_follow .nil (by decide) .nextMember)

/-- And a name, with the colon after it. -/
theorem feedAll_name_colon (unlimited : o.maxTokenLength = none) {name : Bytes} (named : Exchangeable name)
    (before : Array (Bytes × Value)) :
    (Tree.live outer (.name before)).feedAll o (encode (Dialect.exchange.string name) ++ [Byte.colon]) =
      .ok (.live (.object before (encode (lossy name)) :: outer) .blank) := by
  have read : (Tree.live outer (.name before)).feedAll o
      ([] ++ encode (Dialect.exchange.string name) ++ [] ++ Byte.colon :: []) = .ok _ :=
    Grammar.feedAll_name .nil (quoted_string unlimited (readable_exchange named)) .nil .nil
  simpa using read

end

mutual

/-- A value with a text that is not exchangeable. -/
theorem stumbles_write (unlimited : o.maxTokenLength = none) : (v : Value) →
    (¬ ∀ text ∈ v.texts, Exchangeable text) → ∀ outer : List Frame, outer.length + v.height ≤ o.maxDepth →
      BeginsStumbling o outer (encode (Dialect.exchange.write v))
  | .null, odd, _, _ => absurd nofun odd
  | .bool _, odd, _, _ => absurd nofun odd
  | .number _, odd, _, _ => absurd nofun odd
  | .string text, odd, outer, _ => by
      have oddText : ¬ Exchangeable text := fun fine => odd fun other mem => List.mem_singleton.1 mem ▸ fine
      rcases stumbles_string unlimited oddText outer .value with ⟨inside, written, stumbles⟩
      exact ⟨_, _, _, _, written, .string, stumbles⟩
  | .array items, odd, outer, room => by
      rw [Value.height] at room
      rw [Dialect.write, encode_bracket _ _ _ (by decide) (by decide)]
      have inside := stumbles_writeItems unlimited items odd outer #[] (by omega)
      exact ⟨_, _, _, _, rfl, .container .array (by omega), inside.append _⟩
  | .object members, odd, outer, room => by
      rw [Value.height] at room
      rw [Dialect.write, encode_bracket _ _ _ (by decide) (by decide)]
      have inside := stumbles_writeMembers unlimited members odd outer #[] (by omega)
      exact ⟨_, _, _, _, rfl, .container .object (by omega), inside.append _⟩

/-- Elements of which one has such a text. -/
theorem stumbles_writeItems (unlimited : o.maxTokenLength = none) : (items : List Value) →
    (¬ ∀ text ∈ Value.textsItems items, Exchangeable text) → ∀ (outer : List Frame) (before : Array Value),
      outer.length + 1 + Value.heightItems items ≤ o.maxDepth →
        Stumbles o (.live outer (.element before)) (encode (Dialect.exchange.writeItems [] items))
  | [], odd, _, _, _ => absurd nofun odd
  | v :: rest, odd, outer, before, room => by
      rw [Value.heightItems] at room
      rw [Value.textsItems, List.forall_mem_append, not_and_or] at odd
      by_cases here : ∀ text ∈ v.texts, Exchangeable text
      -- The element is read to its end, and the run stumbles after the comma.
      · have later := odd.resolve_left (not_not.2 here)
        cases rest with
        | nil =>
            exact absurd nofun later
        | cons w rest =>
            have others := stumbles_writeItems unlimited (w :: rest) later outer (before.push v.repaired) (by omega)
            rw [writeItems_cons, encode_separator _ _ _ (by decide), List.append_cons]
            exact .after (feedAll_element_comma outer unlimited here (by omega) before) others
      · rw [writeItems_cons_eq, Utf8.encode_append]
        have inside := stumbles_write unlimited v here (.array before :: outer) (by
          rw [List.length_cons]
          omega)
        exact inside.fromElement.append _

/-- Members of which one has such a text or name. -/
theorem stumbles_writeMembers (unlimited : o.maxTokenLength = none) : (members : List (Bytes × Value)) →
    (¬ ∀ text ∈ Value.textsMembers members, Exchangeable text) →
      ∀ (outer : List Frame) (before : Array (Bytes × Value)),
        outer.length + 1 + Value.heightMembers members ≤ o.maxDepth →
          Stumbles o (.live outer (.name before)) (encode (Dialect.exchange.writeMembers [] members))
  | [], odd, _, _, _ => absurd nofun odd
  | (name, v) :: rest, odd, outer, before, room => by
      rw [Value.heightMembers] at room
      rw [Value.textsMembers, List.cons_append, List.forall_mem_cons, List.forall_mem_append, not_and_or,
        not_and_or] at odd
      by_cases named : Exchangeable name
      · have colon := feedAll_name_colon outer unlimited named before
        by_cases here : ∀ text ∈ v.texts, Exchangeable text
        -- The member is read to its end, and the run stumbles after the comma.
        · have later := (odd.resolve_left (not_not.2 named)).resolve_left (not_not.2 here)
          cases rest with
          | nil =>
              exact absurd nofun later
          | cons member rest =>
              have comma := feedAll_member_comma outer unlimited here (by omega) before (encode (lossy name))
              have others := stumbles_writeMembers unlimited (member :: rest) later outer
                (before.push (encode (lossy name), v.repaired)) (by omega)
              rw [writeMembers_cons, encode_separator _ _ _ (by decide), encode_separator _ _ _ (by decide),
                List.append_cons, List.append_cons (encode (Dialect.exchange.write v))]
              exact .after colon (.after comma others)
        · have inside := stumbles_write unlimited v here (.object before (encode (lossy name)) :: outer) (by
            rw [List.length_cons]
            omega)
          rw [writeMembers_cons_eq, encode_separator _ _ _ (by decide), List.append_cons, Utf8.encode_append]
          exact .after colon (inside.fromBlank.append _)
      · rw [writeMembers_cons_eq, Utf8.encode_append]
        rcases stumbles_string unlimited named outer (.name before) with ⟨inside, written, stumbles⟩
        rw [written]
        exact (Stumbles.cons .nameBegins stumbles).append _

end

end JsonStream.Text

/-! ## Sessions -/

namespace JsonStream.Session

open Text (Dialect Exchangeable Stumbles)
open Utf8 (encode)

variable {o : Options} {bytes : Bytes} {v : Value}

/-- A value decoded within a depth is no higher than that. -/
theorem height_le_of_decode (decoded : (start o).decode bytes = .ok v) : v.height ≤ o.maxDepth := by
  rcases (Grammar.decode_eq_ok_iff_document o bytes v).1 decoded with ⟨a, s, b, -, -, spells, -⟩
  rcases Grammar.height_of_spells spells with flat | bound
  · omega
  · omega

/-- Where a run stumbles, decoding fails. -/
theorem decode_of_stumbles (stumbles : Stumbles o .empty bytes) :
    ∃ position, (start o).decode bytes = .error ⟨.invalidEscape Byte.lowerU, position⟩ := by
  rcases stumbles with ⟨before, rest, outer, role, text, rfl, run⟩
  rcases exists_feedAll run with ⟨s, sessionRun, current⟩
  have options : s.options = o := (current_of_feedAll sessionRun).2
  have refused : s.current.feed s.options Byte.lowerU = .error (.invalidEscape Byte.lowerU) := by
    rw [current]
    rfl
  refine ⟨s.position, decode_eq_error_iff.2 (.inl (feedAll_eq_error_iff.2 ?_))⟩
  exact ⟨before, Byte.lowerU, rest, s, rfl, sessionRun, feed_answer_eq_error_iff.2 ⟨refused, rfl⟩⟩

/-- A decoded value can be decoded again from its exchange text, without limit on tokens and whatever counts as
white space, exactly if its strings and names hold no control characters but those with an escape of their
own. Then it is decoded as from its plain text, and otherwise the numbered escape is refused. -/
theorem exchange_agrees (decoded : (start o).decode bytes = .ok v) (lenient : Bool) :
    let again := start { o with maxTokenLength := none, lenientWhitespace := lenient }
    ((∃ w, again.decode (encode (Tree.ofValue v).branch.exchange) = .ok w) ↔ ∀ text ∈ v.texts, Exchangeable text) ∧
      (∀ w, again.decode (encode (Tree.ofValue v).branch.exchange) = .ok w →
        again.decode (encode (Tree.ofValue v).branch.display) = .ok w) ∧
      ∀ failure, again.decode (encode (Tree.ofValue v).branch.exchange) = .error failure →
        failure.fault = .invalidEscape Byte.lowerU := by
  intro again
  rw [Tree.exchange_ofValue, Tree.display_ofValue]
  have room := height_le_of_decode decoded
  by_cases exchangeable : ∀ text ∈ v.texts, Exchangeable text
  · have fromExchange : again.decode (encode (Dialect.exchange.write v)) = .ok v.repaired :=
      decode_write_of_readable rfl (fun text mem => Text.readable_exchange (exchangeable text mem)) room
    have fromPlain : again.decode (encode (Dialect.plain.write v)) = .ok v.repaired := decode_write rfl room
    rw [fromExchange]
    refine ⟨iff_of_true ⟨_, rfl⟩ exchangeable, ?_, ?_⟩
    · intro w same
      rw [fromPlain, same]
    · intro failure refused
      cases refused
  · have begins : Text.BeginsStumbling { o with maxTokenLength := none, lenientWhitespace := lenient } []
        (encode (Dialect.exchange.write v)) :=
      Text.stumbles_write rfl v exchangeable [] (by simpa using room)
    rcases decode_of_stumbles begins.fromBlank with ⟨position, refused⟩
    rw [refused]
    refine ⟨iff_of_false nofun exchangeable, nofun, ?_⟩
    rintro failure same
    cases same
    rfl

/-- A string with a control character that has no letter: its exchange text is refused, though its plain text
is not. -/
theorem exchange_of_control :
    (start {}).decode [0x22, 0x01, 0x22] = .ok (.string [0x01]) ∧
      ¬ ∃ w, (start {}).decode (encode (Tree.ofValue (.string [0x01])).branch.exchange) = .ok w := by
  have decoded : (start {}).decode [0x22, 0x01, 0x22] = .ok (.string [0x01]) := by
    rfl
  have agrees := (exchange_agrees decoded false).1
  refine ⟨decoded, fun accepted => ?_⟩
  have exchangeable := agrees.1 accepted [0x01] List.mem_cons_self 0x01 List.mem_cons_self (by decide)
  exact absurd exchangeable (by decide)

end JsonStream.Session
