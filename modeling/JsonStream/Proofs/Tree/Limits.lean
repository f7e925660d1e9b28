import JsonStream.Proofs.Tree.Takes
import JsonStream.Session.Run
import Mathlib.Data.List.Induction

/-!
# Wider limits

The two limits of a session only refuse. Under wider limits every byte does what it does under the tighter
ones, or else the tighter ones have refused it for a limit that is not the same in both.

- `Options.Within`, `Options.Tighter` — options side by side, and the faults that tell them apart
- `Cut` — two outcomes of the same rule, one lemma for each way rules are put together
- `Tree.cut_feed` — one byte
- `Session.limits_only_cut` — runs and documents
-/

namespace JsonStream

/-! ## Options side by side -/

namespace Options

/-- No limit of `o` is wider than that of `wide`, and both skip the same white space. A missing limit is the
widest. -/
structure Within (o wide : Options) : Prop where
  lenient : o.lenientWhitespace = wide.lenientWhitespace
  depth : o.maxDepth ≤ wide.maxDepth
  token : ∀ most, wide.maxTokenLength = some most → ∃ limit, o.maxTokenLength = some limit ∧ limit ≤ most

/-- The fault names a limit of `o` that is tighter than the one of `wide`. -/
inductive Tighter (o wide : Options) : Fault → Prop
  | depth (less : o.maxDepth < wide.maxDepth) : Tighter o wide (.depthExceeded o.maxDepth)
  | token {limit : Nat} (limited : o.maxTokenLength = some limit)
      (less : ∀ most, wide.maxTokenLength = some most → limit < most) :
      Tighter o wide (.tokenTooLong limit)

/-- Limits have nothing to do with white space. -/
theorem Within.isSpace_eq {o wide : Options} (within : o.Within wide) : o.isSpace = wide.isSpace := by
  funext b
  simp only [isSpace, within.lenient]

end Options

open Options (Within Tighter)

variable {o wide : Options} {α β : Type}

/-! ## Outcomes side by side -/

/-- What a rule gives under the tighter limits and under the wider: the same, or at first a fault that tells
them apart. -/
inductive Cut (o wide : Options) : Except Fault α → Except Fault α → Prop
  | same (x : Except Fault α) : Cut o wide x x
  | tighter {fault : Fault} (x : Except Fault α) (apart : Tighter o wide fault) :
      Cut o wide (.error fault) x

namespace Cut

variable {x x' y y' : Except Fault α}

/-- One rule after another. The first may cut the run short already. -/
theorem bind {f g : α → Except Fault β} (first : Cut o wide x x') (next : ∀ a, Cut o wide (f a) (g a)) :
    Cut o wide (x.bind f) (x'.bind g) := by
  cases first with
  | tighter x apart =>
      exact .tighter _ apart
  | same x =>
      cases x with
      | error fault =>
          exact .same _
      | ok a =>
          exact next a

theorem map (f : α → β) (first : Cut o wide x x') : Cut o wide (x.map f) (x'.map f) := by
  cases first with
  | same x =>
      exact .same _
  | tighter x apart =>
      exact .tighter _ apart

/-- A choice by a condition that is not about limits. -/
theorem ite {c : Prop} [Decidable c] (yes : Cut o wide x x') (no : Cut o wide y y') :
    Cut o wide (if c then x else y) (if c then x' else y') := by
  split
  · exact yes
  · exact no

/-- What is accepted under the tighter limits is accepted under the wider. -/
theorem of_eq_ok {a : α} (cut : Cut o wide x x') (accepted : x = .ok a) : x' = .ok a := by
  subst accepted
  cases cut with
  | same x =>
      rfl

/-- What is refused under the tighter limits is refused for the same under the wider, or for a limit. -/
theorem of_eq_error {fault : Fault} (cut : Cut o wide x x') (refused : x = .error fault) :
    x' = .error fault ∨ Tighter o wide fault := by
  subst refused
  cases cut with
  | same x =>
      exact .inl rfl
  | tighter x apart =>
      exact .inr apart

end Cut

/-! ## Each rule

The limits are asked for at two places, a bracket and the next byte of a token. All else is the same. -/

variable {outer : List Frame} {b : UInt8}

/-- A token may be cut at its length. -/
theorem cut_extend (within : o.Within wide) (token : Array UInt8) (b : UInt8) :
    Cut o wide (o.extend token b) (wide.extend token b) := by
  cases extended : o.extend token b with
  | ok longer =>
      rcases Options.extend_eq_ok_iff.1 extended with ⟨rfl, room⟩
      -- What is within the tighter limit is within the wider.
      have wideRoom : ∀ most, wide.maxTokenLength = some most → token.size < most := by
        intro most limited
        rcases within.token most limited with ⟨limit, tight, le⟩
        exact Nat.lt_of_lt_of_le (room limit tight) le
      rw [Options.extend_eq_ok_iff.2 ⟨rfl, wideRoom⟩]
      exact .same _
  | error fault =>
      rcases Options.extend_eq_error_iff.1 extended with ⟨limit, limited, full, rfl⟩
      by_cases same : wide.maxTokenLength = some limit
      · rw [Options.extend_eq_error_iff.2 ⟨limit, same, full, rfl⟩]
        exact .same _
      · refine .tighter _ (.token limited fun most wideLimited => ?_)
        rcases within.token most wideLimited with ⟨limit', limited', le⟩
        obtain rfl : limit = limit' := Option.some.inj (limited.symm.trans limited')
        refine Nat.lt_of_le_of_ne le ?_
        rintro rfl
        exact same wideLimited

/-- A container may be cut at its depth, and a number at its first byte. -/
theorem cut_beginValue (within : o.Within wide) (outer : List Frame) (b : UInt8) :
    Cut o wide (beginValue o outer b) (beginValue wide outer b) := by
  unfold beginValue
  cases Container.openedBy? b with
  | some c =>
      by_cases same : o.maxDepth = wide.maxDepth
      · simp only [same]
        exact .same _
      · have less : o.maxDepth < wide.maxDepth := Nat.lt_of_le_of_ne within.depth same
        by_cases full : o.maxDepth ≤ outer.length
        · simp only [if_pos full]
          exact .tighter _ (.depth less)
        · have room : ¬ wide.maxDepth ≤ outer.length := fun wideFull =>
            full (Nat.le_trans within.depth wideFull)
          simp only [if_neg full, if_neg room]
          exact .same _
  | none =>
      apply Cut.ite (.same _)
      apply Cut.ite
      · exact (cut_extend within #[] b).bind fun literal => .same _
      · exact .same _

theorem cut_feedString (within : o.Within wide) (outer : List Frame) (role : Role) (text : Array UInt8)
    (b : UInt8) : Cut o wide (feedString o outer role text b) (feedString wide outer role text b) := by
  unfold feedString
  apply Cut.ite (.same _)
  apply Cut.ite (.same _)
  exact (cut_extend within text b).bind fun longer => .same _

theorem cut_feedEscape (within : o.Within wide) (outer : List Frame) (role : Role) (text : Array UInt8)
    (b : UInt8) : Cut o wide (feedEscape o outer role text b) (feedEscape wide outer role text b) := by
  unfold feedEscape
  -- An unknown escape is refused before either limit is asked for.
  cases Escape.decode? b with
  | none =>
      exact .same _
  | some decoded =>
      exact (cut_extend within text decoded).bind fun longer => .same _

theorem cut_feedNumber (within : o.Within wide) (outer : List Frame) (literal : Array UInt8) (b : UInt8) :
    Cut o wide (feedNumber o outer literal b) (feedNumber wide outer literal b) := by
  unfold feedNumber
  rw [within.isSpace_eq]
  apply Cut.ite
  · exact (cut_extend within literal b).bind fun longer => .same _
  · exact .same _

theorem cut_feedElement (within : o.Within wide) (outer : List Frame) (items : Array Value) (b : UInt8) :
    Cut o wide (feedElement o outer items b) (feedElement wide outer items b) := by
  unfold feedElement
  rw [within.isSpace_eq]
  apply Cut.ite (.same _)
  apply Cut.ite (.same _)
  apply Cut.ite (.same _)
  exact cut_beginValue within _ b

namespace Tree

variable {t : Tree}

/-- A byte at any place. Every other rule is the same on both sides. -/
theorem cut_offer (within : o.Within wide) (t : Tree) (b : UInt8) :
    Cut o wide (t.offer o b) (t.offer wide b) := by
  -- Rules without a limit depend on the options only by what is white space.
  cases t with
  | settled s =>
      simp only [offer, Settled.feed, within.isSpace_eq]
      exact .same _
  | live outer focus =>
      cases focus with
      | blank =>
          simp only [offer, within.isSpace_eq]
          exact .ite (.same _) ((cut_beginValue within outer b).map _)
      | keyword word seen =>
          exact .same _
      | number literal =>
          exact cut_feedNumber within outer literal b
      | string role text =>
          exact (cut_feedString within outer role text b).map _
      | escape role text =>
          exact (cut_feedEscape within outer role text b).map _
      | element items =>
          exact (cut_feedElement within outer items b).map _
      | name members =>
          simp only [offer, feedName, within.isSpace_eq]
          exact .same _
      | colon members name =>
          simp only [offer, feedColon, within.isSpace_eq]
          exact .same _

/-- A byte does the same under wider limits, unless it is refused for a tighter one. -/
theorem cut_feed (within : o.Within wide) (t : Tree) (b : UInt8) :
    Cut o wide (t.feed o b) (t.feed wide b) := by
  refine (cut_offer within t b).bind fun reaction => ?_
  cases reaction with
  | taken result =>
      exact .same _
  | passed place =>
      -- What comes after a number has no limit.
      simp only [Settled.feed, within.isSpace_eq]
      exact .same _

end Tree

/-! ## Sessions -/

namespace Session

variable {s : Session} {bytes : Bytes} {v : Value} {failure : Failure} {status : Status}

def under (s : Session) (wide : Options) : Session :=
  { s with options := wide }

/-- A byte that is accepted does the same under wider limits. -/
theorem feed_under_of_ok (within : s.options.Within wide) {b : UInt8}
    (accepted : (s.feed b).answer = .ok status) :
    ((s.under wide).feed b).answer = .ok status ∧
      ((s.under wide).feed b).session = (s.feed b).session.under wide := by
  rcases feed_answer_eq_ok_iff.1 accepted with ⟨t, events, taken, rfl⟩
  have wideTaken : (s.under wide).current.feed wide b = .ok (t, events) :=
    (Tree.cut_feed within s.current b).of_eq_ok taken
  rw [feed_of_ok taken, feed_of_ok wideTaken]
  exact ⟨rfl, rfl⟩

/-- A byte that is refused is refused for the same under wider limits, or for a limit that is tighter. -/
theorem feed_under_of_error (within : s.options.Within wide) {b : UInt8}
    (refused : (s.feed b).answer = .error failure) :
    ((s.under wide).feed b).answer = .error failure ∨ Tighter s.options wide failure.fault := by
  rcases feed_answer_eq_error_iff.1 refused with ⟨fault_eq, position_eq⟩
  rcases (Tree.cut_feed within s.current b).of_eq_error fault_eq with same | apart
  · exact .inl (feed_answer_eq_error_iff.2 ⟨same, position_eq⟩)
  · exact .inr apart

/-- A run that is accepted is the same under wider limits. -/
theorem feedAll_under (within : o.Within wide) (run : (start o).feedAll bytes = .ok s) :
    (start wide).feedAll bytes = .ok (s.under wide) := by
  -- The last byte is split off, so that the session before it is one that the induction knows.
  induction bytes using List.reverseRecOn generalizing s with
  | nil =>
      cases run
      rfl
  | append_singleton bytes b ih =>
      rcases feedAll_concat_eq_ok_iff.1 run with ⟨r, status, before, accepted, rfl⟩
      obtain rfl : r.options = o := (current_of_feedAll before).2
      rcases feed_under_of_ok within accepted with ⟨wideAccepted, session_eq⟩
      exact feedAll_concat_eq_ok_iff.2 ⟨r.under wide, status, ih before, wideAccepted, session_eq.symm⟩

/-- A document that is decoded is decoded to the same under wider limits. -/
theorem decode_under_of_ok (within : o.Within wide) (accepted : (start o).decode bytes = .ok v) :
    (start wide).decode bytes = .ok v := by
  rcases decode_eq_ok_iff_run.1 accepted with ⟨t, run, ended⟩
  rcases exists_feedAll run with ⟨s, sessionRun, rfl⟩
  have wideRun := (current_of_feedAll (feedAll_under within sessionRun)).1
  exact decode_eq_ok_iff_run.2 ⟨s.current, wideRun, ended⟩

/-- A document that fails does so for the same under wider limits, or for a limit that is tighter. -/
theorem decode_under_of_error (within : o.Within wide) (refused : (start o).decode bytes = .error failure) :
    (start wide).decode bytes = .error failure ∨ Tighter o wide failure.fault := by
  rcases decode_eq_error_iff.1 refused with byteRefused | ⟨r, run, endRefused⟩
  · rcases feedAll_eq_error_iff.1 byteRefused with ⟨before, b, rest, r, rfl, run, last⟩
    obtain rfl : r.options = o := (current_of_feedAll run).2
    rcases feed_under_of_error within last with same | apart
    · have wideRefused : (start wide).feedAll (before ++ b :: rest) = .error failure :=
        feedAll_eq_error_iff.2 ⟨before, b, rest, r.under wide, rfl, feedAll_under within run, same⟩
      exact .inl (decode_eq_error_iff.2 (.inl wideRefused))
    · exact .inr apart
  · -- The end of the input has no limit.
    have ended := finish_answer_eq_error_iff.1 endRefused
    have same : (r.under wide).finish.answer = .error failure := finish_answer_eq_error_iff.2 ended
    exact .inl (decode_eq_error_iff.2 (.inr ⟨r.under wide, feedAll_under within run, same⟩))

/-- Limits only cut. Up to the first byte that is refused under tighter limits, a session under wider ones
holds the same tree at the same position and gives the same answers. That byte is refused by both for the
same cause, or for a limit that is not the same in both. So a document is decoded alike or refused alike
unless a tighter limit refuses it. -/
theorem limits_only_cut (within : o.Within wide) :
    (∀ bytes s, (start o).feedAll bytes = .ok s →
      (start wide).feedAll bytes = .ok (s.under wide) ∧
        ∀ b,
          (∀ status, (s.feed b).answer = .ok status → ((s.under wide).feed b).answer = .ok status) ∧
          (∀ failure, (s.feed b).answer = .error failure →
            ((s.under wide).feed b).answer = .error failure ∨ Tighter o wide failure.fault)) ∧
      (∀ bytes v, (start o).decode bytes = .ok v → (start wide).decode bytes = .ok v) ∧
      ∀ bytes failure, (start o).decode bytes = .error failure →
        (start wide).decode bytes = .error failure ∨ Tighter o wide failure.fault := by
  refine ⟨?_, ?_, ?_⟩
  · intro bytes s run
    obtain rfl : s.options = o := (current_of_feedAll run).2
    refine ⟨feedAll_under within run, fun b => ⟨?_, ?_⟩⟩
    · intro status accepted
      exact (feed_under_of_ok within accepted).1
    · intro failure refused
      exact feed_under_of_error within refused
  · intro bytes v accepted
    exact decode_under_of_ok within accepted
  · intro bytes failure refused
    exact decode_under_of_error within refused

/-- One level of nesting against two: `[[` is refused for the tighter limit only, and `[tx` by both. -/
theorem limits_cut_nested :
    ({ maxDepth := 1, maxTokenLength := some 2 } : Options).Within { maxDepth := 2 } ∧
      (start { maxDepth := 1, maxTokenLength := some 2 }).decode [0x5B, 0x5B, 0x5D, 0x5D] =
        .error ⟨.depthExceeded 1, ⟨1, 1, 2⟩⟩ ∧
      (start { maxDepth := 2 }).decode [0x5B, 0x5B, 0x5D, 0x5D] = .ok (.array [.array []]) ∧
      (start { maxDepth := 2 }).decode [0x5B, 0x74, 0x78] =
        .error ⟨.keywordMismatch (.bool true), ⟨2, 1, 3⟩⟩ := by
  have within : ({ maxDepth := 1, maxTokenLength := some 2 } : Options).Within { maxDepth := 2 } :=
    ⟨rfl, by decide, nofun⟩
  have refused : (start { maxDepth := 1, maxTokenLength := some 2 }).decode [0x5B, 0x74, 0x78] =
      .error ⟨.keywordMismatch (.bool true), ⟨2, 1, 3⟩⟩ := by
    rfl
  refine ⟨within, rfl, rfl, ?_⟩
  rcases (limits_only_cut within).2.2 _ _ refused with same | apart
  · exact same
  · cases apart

end Session

end JsonStream
