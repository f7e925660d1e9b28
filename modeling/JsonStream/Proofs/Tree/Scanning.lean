import JsonStream.Brackets
import JsonStream.Proofs.Branch.Agreement

/-!
# Trees and the bracket scanner

The bracket scanner knows of strings and brackets only, and that is enough to know which containers are open
in a tree, and whether the tree is inside a string. This holds as long as bytes are accepted, whatever the
options are.

- `Tree.scanned` — what the scanner is to remember, read off the tree
- `Tree.next_of_takes`, `Tree.scan_of_feedAll` — one byte, and a run
-/

namespace JsonStream

open Brackets (Scan)

/-! ## Bytes that the scanner passes over -/

namespace Brackets.Scan

variable {o : Options} {b : UInt8} {stack : List Container}

def marks : List UInt8 :=
  [Byte.quote, Byte.openBracket, Byte.openBrace, Byte.closeBracket, Byte.closeBrace]

/-- A class of bytes without these means nothing to it. -/
theorem outside_of_class {p : UInt8 → Bool} (apart : marks.any p = false) (member : p b = true) :
    outside stack b = ⟨.outside, stack⟩ := by
  have plain : b ∉ marks := by
    intro mem
    have found : marks.any p = true := List.any_eq_true.2 ⟨b, mem, member⟩
    rw [apart] at found
    cases found
  simp only [marks, List.mem_cons, List.not_mem_nil, or_false, not_or] at plain
  simp [outside, Container.openedBy?, Container.closedBy?, plain]

theorem outside_space (space : o.isSpace b = true) : outside stack b = ⟨.outside, stack⟩ := by
  have apart : marks.any (fun c => !decide (Byte.space < c)) = false := by
    rfl
  apply outside_of_class apart
  by_cases beyond : Byte.space < b
  · exact absurd space (o.not_isSpace beyond)
  · simp [beyond]

theorem outside_inNumber (part : Byte.inNumber b = true) : outside stack b = ⟨.outside, stack⟩ := by
  have apart : marks.any Byte.inNumber = false := by
    rfl
  exact outside_of_class apart part

theorem outside_letter {word : Keyword} (letter : b ∈ word.spelling) :
    outside stack b = ⟨.outside, stack⟩ := by
  have apart : marks.any (fun c => word.spelling.contains c) = false := by
    cases word with
    | null =>
        rfl
    | bool c =>
        cases c <;> rfl
  exact outside_of_class apart (List.contains_iff_mem.2 letter)

theorem outside_opening (c : Container) : outside stack c.opening = ⟨.outside, c :: stack⟩ := by
  cases c <;> rfl

end Brackets.Scan

/-! ## What a tree has open -/

def Focus.scanned (stack : List Container) : Focus → Scan
  | string .value _ => ⟨.inside, stack⟩
  | string (.name _) _ => ⟨.inside, .object :: stack⟩
  | escape .value _ => ⟨.escaped, stack⟩
  | escape (.name _) _ => ⟨.escaped, .object :: stack⟩
  | element _ => ⟨.outside, .array :: stack⟩
  | name _ | colon _ _ => ⟨.outside, .object :: stack⟩
  | blank | keyword _ _ | number _ => ⟨.outside, stack⟩

/-- Whether a tree is inside a string, and its open containers, the innermost first. -/
def Tree.scanned : Tree → Scan
  | settled (.document _) => ⟨.outside, []⟩
  | settled (.element outer _) => ⟨.outside, .array :: outer.map Frame.container⟩
  | settled (.member outer _) => ⟨.outside, .object :: outer.map Frame.container⟩
  | live outer focus => focus.scanned (outer.map Frame.container)

namespace Tree

open Brackets.Scan (outside_space outside_inNumber outside_letter outside_opening)

variable {o : Options} {outer : List Frame} {b : UInt8} {t u : Tree} {events : List Event} {bytes : Bytes}

/-- A value that ends leaves open what is around it. -/
theorem scanned_of (outer : List Frame) (v : Value) :
    (settled (.of outer v)).scanned = ⟨.outside, outer.map Frame.container⟩ := by
  cases outer with
  | nil =>
      rfl
  | cons f outer =>
      cases f <;> rfl

/-- The first byte of a value, for the scanner. -/
theorem next_of_begins (begins : Begins o outer b t events) :
    Brackets.Scan.outside (outer.map Frame.container) b = t.scanned := by
  cases begins with
  | container c room =>
      rw [outside_opening]
      cases c <;> rfl
  | string =>
      rfl
  | number first fits =>
      exact outside_inNumber (Byte.inNumber_of_startsNumber first)
  | keyword word first =>
      exact outside_letter (List.mem_of_mem_head? first)

/-- A byte after a value, for the scanner. -/
theorem next_of_settled {s : Settled} (takes : s.Takes o b t events) :
    (settled s).scanned.next b = t.scanned := by
  cases takes with
  | space space =>
      cases s <;> exact outside_space space
  | nextElement =>
      rfl
  | closeArray =>
      rw [scanned_of]
      rfl
  | nextMember =>
      rfl
  | closeObject =>
      rw [scanned_of]
      rfl

/-- The scanner goes on with a byte as the tree does that accepts it. -/
theorem next_of_takes (takes : Takes o t b u events) : t.scanned.next b = u.scanned := by
  -- A byte that ends a number comes after it for the scanner as well, since a number opens nothing.
  cases takes with
  | settled rest =>
      exact next_of_settled rest
  | blankSpace space =>
      exact outside_space space
  | blankBegins begins =>
      exact next_of_begins begins
  | keywordNext next more =>
      exact outside_letter (List.mem_of_getElem? next)
  | keywordEnd next last =>
      rw [scanned_of]
      exact outside_letter (List.mem_of_getElem? next)
  | numberNext part fits =>
      exact outside_inNumber part
  | @numberEnd outer literal b v t events ends value rest =>
      have ended := next_of_settled rest
      rwa [scanned_of] at ended
  | @stringEnd outer role text =>
      cases role with
      | value =>
          rw [endString, scanned_of]
          rfl
      | name members =>
          rfl
  | @stringEscape outer role text =>
      cases role <;> rfl
  | @stringPlain outer role text b notQuote notBackslash fits =>
      cases role <;> simp [scanned, Focus.scanned, Scan.next, notQuote, notBackslash]
  | @escape outer role text b c decoded fits =>
      cases role <;> rfl
  | elementSpace space =>
      exact outside_space space
  | elementClose =>
      rw [scanned_of]
      rfl
  | elementBegins begins =>
      exact next_of_begins begins
  | nameSpace space =>
      exact outside_space space
  | nameBegins =>
      rfl
  | nameClose =>
      rw [scanned_of]
      rfl
  | colonSpace space =>
      exact outside_space space
  | colon =>
      rfl

/-- The scanner goes over a run beside the tree. -/
theorem foldl_next_of_feedAll (run : t.feedAll o bytes = .ok u) :
    bytes.foldl Scan.next t.scanned = u.scanned := by
  induction bytes generalizing t with
  | nil =>
      cases run
      rfl
  | cons b rest ih =>
      rcases feedAll_cons_eq_ok_iff.1 run with ⟨next, events, taken, later⟩
      rw [List.foldl_cons, next_of_takes (takes_of_feed taken)]
      exact ih later

/-- The scanner finds open what a tree has open. -/
theorem scan_of_feedAll (run : Tree.feedAll o .empty bytes = .ok t) : Brackets.scan bytes = t.scanned :=
  foldl_next_of_feedAll run

end Tree

end JsonStream
