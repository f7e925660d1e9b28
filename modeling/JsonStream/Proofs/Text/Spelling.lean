import JsonStream.Proofs.Binary64.Shortest
import JsonStream.Proofs.Decimal.Rendering
import JsonStream.Proofs.Grammar.Reads
import JsonStream.Text.Json
import JsonStream.Value.Content

/-!
# JSON text spells what it was written for

A value written in a dialect is a derivation in the grammar of documents, for every value that the depth
limit admits and whatever counts as white space, since none is written. What it spells is the value with its
texts repaired: the writer puts a replacement character for each ill-formed piece. The texts must be written
with escapes that the grammar has; in the plain dialect they all are.

- `content_escape`, `content_unescaped` — one character of a string
- `number_written` — a number
- `Dialect.Readable`, `readable_plain` — texts without unknown escapes
- `spells_write` — a whole value
-/

namespace JsonStream.Text

open Grammar (Content Elements Fits Members Number Quoted Spells)
open Utf8 (encode lossy)

variable {o : Options} {depth : Nat} {d : Dialect}

theorem fits_of_unlimited (unlimited : o.maxTokenLength = none) (length : Nat) : Fits o length := by
  intro limit limited
  rw [unlimited] at limited
  cases limited

/-! ## Strings -/

/-- Bytes that are neither quotes nor backslashes stand for themselves. -/
theorem content_self {s : Bytes} (ordinary : ∀ b ∈ s, b ≠ Byte.quote ∧ b ≠ Byte.backslash) :
    Content s s := by
  induction s with
  | nil =>
      exact .nil
  | cons b rest ih =>
      rcases ordinary b List.mem_cons_self with ⟨notQuote, notBackslash⟩
      exact .plain notQuote notBackslash (ih fun c mem => ordinary c (List.mem_cons_of_mem b mem))

/-- Escapes are ASCII, the character and the letter written for it. -/
theorem toNat_lt_of_letter? {c letter : Char} (found : Escape.letter? c = some letter) :
    c.toNat < 0x80 ∧ letter.toNat < 0x80 := by
  unfold Escape.letter? at found
  -- Each escape is a case of its own, with its character and its letter.
  split at found
  · rename_i self
    cases found
    rcases self with rfl | rfl
    all_goals decide
  · repeat' split at found
    all_goals first
      | cases found; subst_vars; decide
      | cases found

/-- A character without an escape has no byte that would need one. -/
theorem ordinary_of_letter? {c : Char} (none : Escape.letter? c = none) :
    ∀ b ∈ String.utf8EncodeChar c, b ≠ Byte.quote ∧ b ≠ Byte.backslash := by
  intro b mem
  -- The quote and the backslash have escapes. Outside ASCII no byte of a character is either of them.
  by_cases ascii : c.toNat < 0x80
  · rw [Utf8.encodeChar_of_lt ascii, List.mem_singleton] at mem
    have char_eq : Char.ofNat b.toNat = c := by
      rw [mem, UInt8.toNat_ofNat', Nat.mod_eq_of_lt (by omega)]
      exact Char.ofNat_toNat c
    refine ⟨?_, ?_⟩
    · rintro rfl
      rw [← char_eq] at none
      exact absurd none (by decide)
    · rintro rfl
      rw [← char_eq] at none
      exact absurd none (by decide)
  · have high := Utf8.le_of_mem_encodeChar (Nat.le_of_not_lt ascii) mem
    refine ⟨?_, ?_⟩
    · rintro rfl
      exact absurd high (by decide)
    · rintro rfl
      exact absurd high (by decide)

/-- The reader undoes the escapes of the writer. -/
theorem content_escape {c letter : Char} (found : Escape.letter? c = some letter) :
    Content (encode ['\\', letter]) (String.utf8EncodeChar c) := by
  rcases toNat_lt_of_letter? found with ⟨ascii, asciiLetter⟩
  have backslash : String.utf8EncodeChar '\\' = [Byte.backslash] := by
    rfl
  rw [Utf8.encode_cons, Utf8.encode_cons, backslash, Utf8.encodeChar_of_lt ascii,
    Utf8.encodeChar_of_lt asciiLetter]
  exact .escape (Escape.decode?_of_letter? found) .nil

/-- It takes all else as it comes. -/
theorem content_unescaped {c : Char} (none : Escape.letter? c = none) :
    Content (encode [c]) (String.utf8EncodeChar c) := by
  have all : encode [c] = String.utf8EncodeChar c := List.append_nil _
  rw [all]
  exact content_self (ordinary_of_letter? none)

/-- Every character of the text, repaired, is written as something that is read back as that character. -/
def Dialect.Readable (d : Dialect) (text : Bytes) : Prop :=
  ∀ c ∈ lossy text, Content (encode (d.char c)) (String.utf8EncodeChar c)

/-- Plain text can be read back whatever it contains. -/
theorem readable_plain (text : Bytes) : Dialect.plain.Readable text := by
  intro c _
  simp only [Dialect.plain, escaped]
  cases found : Escape.letter? c with
  | some letter =>
      exact content_escape found
  | none =>
      exact content_unescaped found

/-- Characters that are read back one by one are read back together. -/
theorem content_chars {cs : List Char}
    (readable : ∀ c ∈ cs, Content (encode (d.char c)) (String.utf8EncodeChar c)) :
    Content (encode (cs.flatMap d.char)) (encode cs) := by
  induction cs with
  | nil =>
      exact .nil
  | cons c rest ih =>
      have first := readable c List.mem_cons_self
      have others := ih fun e mem => readable e (List.mem_cons_of_mem c mem)
      rw [List.flatMap_cons, Utf8.encode_append, Utf8.encode_cons]
      exact first.append others

/-- A string is its characters between quotes. -/
theorem encode_string (d : Dialect) (text : Bytes) :
    encode (d.string text) = Byte.quote :: encode ((lossy text).flatMap d.char) ++ [Byte.quote] := by
  have quote : String.utf8EncodeChar '"' = [Byte.quote] := by
    rfl
  rw [Dialect.string, Utf8.encode_append, Utf8.encode_cons, quote]
  rfl

/-- A string is read back repaired. -/
theorem quoted_string (unlimited : o.maxTokenLength = none) {text : Bytes} (readable : d.Readable text) :
    Quoted o (encode (d.string text)) (encode (lossy text)) := by
  have quoted := Quoted.intro (content_chars readable) (fits_of_unlimited unlimited _)
  rwa [encode_string]

/-! ## Numbers -/

/-- A number is read back as itself. -/
theorem number_written (unlimited : o.maxTokenLength = none) (d : Dialect) (x : Binary64) :
    Number o (encode (d.number x)) x := by
  obtain ⟨⟨e, numeral, sign, magnitude⟩, first⟩ := Decimal.writes_render d.layout (x.shortest d.tie)
  -- The shortest decimal rounds to the number, and so does the numeral it is written as.
  have rounds := (x.shortest_roundsTo d.tie).of_eq sign magnitude
  exact ⟨first, ⟨e, numeral, rounds⟩, fits_of_unlimited unlimited _⟩

/-! ## Values -/

theorem encode_bracket (cs : List Char) (c d : Char) (asciiC : c.toNat < 0x80) (asciiD : d.toNat < 0x80) :
    encode (c :: cs ++ [d]) = UInt8.ofNat c.toNat :: encode cs ++ [UInt8.ofNat d.toNat] := by
  have last : encode [d] = [UInt8.ofNat d.toNat] := by
    rw [Utf8.encode_cons, Utf8.encodeChar_of_lt asciiD]
    rfl
  rw [List.cons_append, Utf8.encode_cons, Utf8.encode_append, Utf8.encodeChar_of_lt asciiC, last]
  rfl

theorem encode_separator (cs ds : List Char) (c : Char) (ascii : c.toNat < 0x80) :
    encode (cs ++ c :: ds) = encode cs ++ UInt8.ofNat c.toNat :: encode ds := by
  rw [Utf8.encode_append, Utf8.encode_cons, Utf8.encodeChar_of_lt ascii, List.singleton_append]

theorem writeItems_cons (d : Dialect) (v w : Value) (rest : List Value) :
    d.writeItems [] (v :: w :: rest) = d.write v ++ ',' :: d.writeItems [] (w :: rest) := by
  simp [Dialect.writeItems]

theorem writeMembers_cons (d : Dialect) (name : Bytes) (v : Value) (member : Bytes × Value)
    (rest : List (Bytes × Value)) :
    d.writeMembers [] ((name, v) :: member :: rest) =
      d.string name ++ ':' :: (d.write v ++ ',' :: d.writeMembers [] (member :: rest)) := by
  simp [Dialect.writeMembers]

mutual

/-- A value that is not too deep is spelled by what is written for it. -/
theorem spells_write (unlimited : o.maxTokenLength = none) (depth : Nat) : (v : Value) →
    (∀ text ∈ v.texts, d.Readable text) → depth + v.height ≤ o.maxDepth →
      Spells o depth (encode (d.write v)) v.repaired
  | .null, _, _ => .keyword .null
  | .bool false, _, _ => .keyword (.bool false)
  | .bool true, _, _ => .keyword (.bool true)
  | .number x, _, _ => .number (number_written unlimited d x)
  | .string text, readable, _ => .string (quoted_string unlimited (readable text List.mem_cons_self))
  | .array [], _, room => by
      rw [Value.height] at room
      exact .emptyArray (by omega) .nil
  | .array (v :: rest), readable, room => by
      rw [Value.height] at room
      rw [Dialect.write, encode_bracket _ _ _ (by decide) (by decide)]
      exact .array (by omega)
        (elements_writeItems unlimited (depth + 1) (v :: rest) nofun readable (by omega))
  | .object [], _, room => by
      rw [Value.height] at room
      exact .emptyObject (by omega) .nil
  | .object (member :: rest), readable, room => by
      rw [Value.height] at room
      rw [Dialect.write, encode_bracket _ _ _ (by decide) (by decide)]
      exact .object (by omega)
        (members_writeMembers unlimited (depth + 1) (member :: rest) nofun readable (by omega))

/-- What is written of elements spells them with their texts repaired. -/
theorem elements_writeItems (unlimited : o.maxTokenLength = none) (depth : Nat) :
    (items : List Value) → items ≠ [] → (∀ text ∈ Value.textsItems items, d.Readable text) →
      depth + Value.heightItems items ≤ o.maxDepth →
        Elements o depth (encode (d.writeItems [] items))
          (Value.mapTextsItems (fun text => encode (lossy text)) items)
  | [], nonempty, _, _ => absurd rfl nonempty
  | [v], _, readable, room => by
      rw [Value.heightItems] at room
      rw [Value.textsItems, List.forall_mem_append] at readable
      have value := spells_write unlimited depth v readable.1 (by omega)
      have one := Elements.one .nil value .nil
      have written : d.writeItems [] [v] = d.write v := by
        simp [Dialect.writeItems]
      rw [List.append_nil] at one
      rw [written]
      exact one
  | v :: w :: rest, _, readable, room => by
      rw [Value.heightItems] at room
      rw [Value.textsItems, List.forall_mem_append] at readable
      have value := spells_write unlimited depth v readable.1 (by omega)
      have others := elements_writeItems unlimited depth (w :: rest) nofun readable.2 (by omega)
      have more := Elements.more .nil value .nil others
      rw [List.append_nil] at more
      rw [writeItems_cons, encode_separator _ _ _ (by decide)]
      exact more

theorem members_writeMembers (unlimited : o.maxTokenLength = none) (depth : Nat) :
    (members : List (Bytes × Value)) → members ≠ [] →
      (∀ text ∈ Value.textsMembers members, d.Readable text) →
        depth + Value.heightMembers members ≤ o.maxDepth →
          Members o depth (encode (d.writeMembers [] members))
            (Value.mapTextsMembers (fun text => encode (lossy text)) members)
  | [], nonempty, _, _ => absurd rfl nonempty
  | [(name, v)], _, readable, room => by
      rw [Value.heightMembers] at room
      rw [Value.textsMembers, List.cons_append, List.forall_mem_cons, List.forall_mem_append] at readable
      have quoted := quoted_string unlimited readable.1
      have value := spells_write unlimited depth v readable.2.1 (by omega)
      have one := Members.one .nil quoted .nil .nil value .nil
      have written : d.writeMembers [] [(name, v)] = d.string name ++ ':' :: d.write v := by
        simp [Dialect.writeMembers]
      rw [written, encode_separator _ _ _ (by decide)]
      simp only [List.append_nil, List.nil_append] at one
      exact one
  | (name, v) :: member :: rest, _, readable, room => by
      rw [Value.heightMembers] at room
      rw [Value.textsMembers, List.cons_append, List.forall_mem_cons, List.forall_mem_append] at readable
      have quoted := quoted_string unlimited readable.1
      have value := spells_write unlimited depth v readable.2.1 (by omega)
      have others := members_writeMembers unlimited depth (member :: rest) nofun readable.2.2 (by omega)
      have more := Members.more .nil quoted .nil .nil value .nil others
      rw [writeMembers_cons, encode_separator _ _ _ (by decide), encode_separator _ _ _ (by decide)]
      simp only [List.append_nil, List.nil_append] at more
      exact more

end

end JsonStream.Text
