import JsonStream.Branch.Report
import JsonStream.Proofs.Branch.Agreement
import JsonStream.Proofs.Branch.Ending

/-!
# What is reported is what happens

Reports are made before the fate of a byte is known. All the same a byte that is refused has reported nothing: the
rules that report are the last to be asked, save that a container has the byte again after a number, and a number
reports nothing.

- `Branch.outcome_report`, `Branch.outcome_reportFeed` — reports change no result
- `Branch.entries_plug` — on the way up nothing is reported, unless a number has ended
- `Tree.entries_reportFeed` — what a byte for a document reports
-/

namespace JsonStream

variable {o : Options} {b : UInt8} {outer : List Frame} {name : Option Bytes}

namespace Branch

variable {n m : Branch} {c : Container} {depth : Nat}

/-! ## Results -/

theorem outcome_reportStart : (n.reportStart o depth b).outcome = n.feedStart o depth b := by
  by_cases space : o.isSpace b = true
  · simp only [reportStart, feedStart, if_pos space, Traced.quiet]
  · cases opened : Container.openedBy? b with
    | some c =>
        simp only [reportStart, feedStart, if_neg space, opened]
        split <;> rfl
    | none =>
        simp only [reportStart, if_neg space, opened, Traced.quiet]

theorem reportStart_quote :
    n.reportStart o depth Byte.quote = .quiet (.ok (n.begin .string .string, .pending)) := by
  rw [← feedStart_quote n depth, reportStart, if_neg (o.not_isSpace (by decide))]
  rfl

theorem outcome_reportString : (n.reportString o b).outcome = n.feedString o b := by
  by_cases quote : b = Byte.quote
  · simp only [reportString, feedString, if_pos quote]
  · simp only [reportString, if_neg quote, Traced.quiet]

theorem outcome_reportAfterChild : (n.reportAfterChild c o b).outcome = n.feedAfterChild c o b := by
  by_cases space : o.isSpace b = true
  · simp only [reportAfterChild, feedAfterChild, if_pos space, Traced.quiet]
  · by_cases comma : b = Byte.comma
    · simp only [reportAfterChild, feedAfterChild, if_neg space, if_pos comma, Traced.quiet]
    · by_cases close : b = c.closing
      · simp only [reportAfterChild, feedAfterChild, if_neg space, if_neg comma, if_pos close, reportClosing]
      · simp only [reportAfterChild, if_neg space, if_neg comma, if_neg close, Traced.quiet]

theorem outcome_reportAfterName (result : Branch × Status) :
    (n.reportAfterName result).outcome = .ok (n.afterName result) := by
  rcases result with ⟨child, _ | _⟩ <;> rfl

theorem outcome_reportAfterValue (result : Branch × Status) :
    (n.reportAfterValue c o b result).outcome = n.afterValue c o b result := by
  rcases result with ⟨child, _ | _⟩
  · rfl
  · simp only [reportAfterValue, afterValue]
    split
    · exact outcome_reportAfterChild
    · rfl

theorem outcome_reportName : (n.reportName o depth b).outcome = n.feedName o depth b := by
  by_cases space : o.isSpace b = true
  · simp only [reportName, feedName, if_pos space, Traced.quiet]
  · by_cases quote : b = Byte.quote
    · simp only [reportName, feedName, if_neg space, if_pos quote, Traced.outcome_bind, outcome_reportStart]
      cases fresh.feedStart o (depth + 1) b <;> rfl
    · by_cases close : b = Byte.closeBrace ∧ n.children.isEmpty = true
      · simp only [reportName, feedName, if_neg space, if_neg quote, if_pos close, reportClosing]
      · simp only [reportName, if_neg space, if_neg quote, if_neg close, Traced.quiet]

theorem outcome_reportElement : (n.reportElement o depth b).outcome = n.feedElement o depth b := by
  rw [reportElement, feedElement]
  split
  · rfl
  · split
    · rfl
    · split
      · rfl
      · rw [Traced.outcome_bind, outcome_reportStart]
        exact congrArg _ (funext outcome_reportAfterValue)

theorem outcome_reportMember : (n.reportMember o depth b).outcome = n.feedMember o depth b := by
  rw [reportMember, feedMember]
  split
  · rfl
  · rw [Traced.outcome_bind, outcome_reportStart]
    exact congrArg _ (funext outcome_reportAfterValue)

/-- Reports change nothing. -/
theorem outcome_report : (depth : Nat) → (n : Branch) → (n.report o b depth).outcome = n.advance o b depth
  | depth, ⟨kind, number, text, name, children, stage, token, none⟩ => by
    cases stage with
    | none =>
        rfl
    | some stage =>
      cases stage with
      | start =>
          exact outcome_reportStart
      | string =>
          exact outcome_reportString
      | element =>
          exact outcome_reportElement
      | elementEnd | memberEnd =>
          exact outcome_reportAfterChild
      | name =>
          exact outcome_reportName
      | member =>
          exact outcome_reportMember
      | _ =>
          rfl
  | depth, ⟨kind, number, text, name, children, stage, token, some child⟩ => by
    have inside := outcome_report (depth + 1) child
    cases stage with
    | none =>
        rfl
    | some stage =>
      cases stage with
      | start =>
          exact outcome_reportStart
      | string =>
          exact outcome_reportString
      | element | member =>
        rw [report, advance, Traced.outcome_bind, inside]
        exact congrArg _ (funext outcome_reportAfterValue)
      | elementEnd | memberEnd =>
          exact outcome_reportAfterChild
      | name =>
        rw [report, advance, Traced.outcome_bind, inside]
        cases child.advance o b (depth + 1) with
        | error fault =>
            rfl
        | ok result =>
            exact outcome_reportAfterName result
      | _ =>
          rfl

/-- The rules with their reports come to what they come to without. -/
theorem outcome_reportFeed (n : Branch) : (n.reportFeed o b).outcome = n.feed o b := by
  rw [reportFeed, feed, Traced.outcome_bind, outcome_report]
  refine congrArg _ (funext fun result => ?_)
  split
  · exact outcome_report 0 result.1
  · rfl

/-! ## The way up -/

/-- A container hands the byte to the value inside it, and reports what that reports before its own. -/
theorem report_around (f : Frame) :
    (f.around name n).report o b depth =
      (n.report o b (depth + 1)).bind ((f.around name n).reportAfterValue f.container o b) := by
  cases f <;> rfl

/-- A container whose child has ended has the byte itself, and reports it. -/
theorem report_closed (f : Frame) (v : Value) :
    (f.closed name v).report o b depth = (f.closed name v).reportAfterChild f.container o b := by
  cases f <;> rfl

/-- A container adds nothing to what its child reports, unless the child ends as a number. -/
theorem entries_around (f : Frame) (notNumber : n.kind ≠ some .number) :
    ((f.around name n).report o b depth).entries = (n.report o b (depth + 1)).entries := by
  rw [report_around]
  refine Traced.entries_bind_of_quiet fun result answered => ?_
  rw [outcome_report] at answered
  rcases result with ⟨child, _ | _⟩
  · rfl
  · have other : child.kind ≠ some .number := (ended_of_advance answered).kind ▸ notNumber
    rw [reportAfterValue, if_neg other]
    rfl

/-- The frames around a value that is no number have nothing of their own to report, whatever the byte. -/
theorem entries_plug (notNumber : n.kind ≠ some .number) :
    ((Frame.plug outer n).report o b depth).entries = (n.report o b (depth + outer.length)).entries := by
  induction outer generalizing n with
  | nil =>
      rfl
  | cons f outer ih =>
      have container : (f.around (Frame.nameInside outer) n).kind ≠ some .number := by
        cases f <;> exact nofun
      rw [Frame.plug, ih container, entries_around f notNumber, List.length_cons, Nat.add_assoc]

/-- What has ended reports nothing, so it makes no difference that a document that is a number has the byte again. -/
theorem entries_reportFeed (n : Branch) : (n.reportFeed o b).entries = (n.report o b 0).entries := by
  refine Traced.entries_bind_of_quiet fun result answered => ?_
  rw [outcome_report] at answered
  rcases result with ⟨⟨kind, number, text, name, children, stage, token, active⟩, status⟩
  dsimp only
  split
  · rename_i again
    obtain rfl := again.1
    obtain rfl : stage = none := (ended_of_advance answered).stage
    rfl
  · rfl

/-- After a child, only the end of the container is reported. -/
theorem entries_reportAfterChild :
    (n.reportAfterChild c o b).entries = if b = c.closing then [.closed c n.children.length] else [] := by
  by_cases close : b = c.closing
  · have notSpace : ¬ o.isSpace b = true := close ▸ o.not_isSpace c.space_lt_closing
    have notComma : b ≠ Byte.comma := by
      subst close
      cases c <;> decide
    rw [reportAfterChild, if_neg notSpace, if_neg notComma, if_pos close, if_pos close]
    rfl
  · rw [reportAfterChild, if_neg close, if_neg close]
    split
    · rfl
    · split <;> rfl

/-- Inside a string, only its end is reported. -/
theorem entries_reportString :
    (n.reportString o b).entries = if b = Byte.quote then [.string n.token.size] else [] := by
  rw [reportString]
  split <;> rfl

end Branch

/-! ## Trees -/

/-- The events of a byte for a tree; none, if it is refused. -/
def told : Except Fault Taken → List Event
  | .ok taken => taken.2
  | .error _ => []

/-- Nothing is told where no byte that is taken has events. -/
theorem told_eq_nil {x : Except Fault Taken} (silent : ∀ u events, x = .ok (u, events) → events = []) :
    told x = [] := by
  cases x with
  | error fault =>
      rfl
  | ok taken =>
      exact silent taken.1 taken.2 rfl

/-- What is told of a byte is its events, if it is taken. -/
theorem Tree.told_of_takes {t u : Tree} {events : List Event} (takes : t.Takes o b u events) :
    told (t.feed o b) = events := by
  rw [feed_of_takes takes]
  rfl

/-- Where a value is to come, both rules report an opening bracket. -/
theorem entries_reportStart (outer : List Frame) (notSpace : ¬ o.isSpace b = true) (n : Branch) :
    (n.reportStart o outer.length b).entries = told (beginValue o outer b) := by
  rw [Branch.reportStart, if_neg notSpace]
  cases opened : Container.openedBy? b with
  | some c =>
      rw [beginValue, opened]
      dsimp only
      split <;> rfl
  | none =>
      refine (told_eq_nil fun u events began => ?_).symm
      cases beginValue_eq_ok_iff.1 began with
      | container c room =>
          rw [Container.openedBy?_eq_some_iff.2 rfl] at opened
          cases opened
      | _ =>
          rfl

namespace Settled

variable {items : Array Value} {members : Array (Bytes × Value)}

/-- After an element, the closing bracket is told with the number of elements. -/
theorem told_element :
    told ((element outer items).feed o b) = if b = Byte.closeBracket then [.closed .array items.size] else [] := by
  split
  · rename_i close
    subst close
    rw [feed_eq_ok_iff.2 .closeArray]
    rfl
  · rename_i notClose
    refine told_eq_nil fun u events fed => ?_
    cases feed_eq_ok_iff.1 fed with
    | closeArray =>
        exact absurd rfl notClose
    | _ =>
        rfl

/-- After a member, the closing brace is told with the number of members. -/
theorem told_member :
    told ((member outer members).feed o b) =
      if b = Byte.closeBrace then [.closed .object members.size] else [] := by
  split
  · rename_i close
    subst close
    rw [feed_eq_ok_iff.2 .closeObject]
    rfl
  · rename_i notClose
    refine told_eq_nil fun u events fed => ?_
    cases feed_eq_ok_iff.1 fed with
    | closeObject =>
        exact absurd rfl notClose
    | _ =>
        rfl

/-- A byte after a value reports the bracket that it is. -/
theorem entries_report (s : Settled) : (s.branch.report o b 0).entries = told (s.feed o b) := by
  cases s with
  | document v =>
      have silent : ((document v).branch.report o b 0).entries = [] := by
        cases v <;> rfl
      rw [silent]
      refine (told_eq_nil fun u events fed => ?_).symm
      exact (takes_document_iff.1 (feed_eq_ok_iff.1 fed)).2.2
  | element outer items =>
      rw [branch, Branch.entries_plug (by rintro ⟨⟩), told_element]
      refine Branch.entries_reportAfterChild.trans ?_
      simp only [Value.branchItems_eq_map, List.length_map, Array.length_toList]
      rfl
  | member outer members =>
      rw [branch, Branch.entries_plug (by rintro ⟨⟩), told_member]
      refine Branch.entries_reportAfterChild.trans ?_
      simp only [Value.branchMembers_eq_map, List.length_map, Array.length_toList]
      rfl

end Settled

namespace Tree

variable {items : Array Value} {members : Array (Bytes × Value)} {text literal : Array UInt8} {role : Role}

theorem told_feed_eq_nil {t : Tree} (silent : ∀ u events, t.Takes o b u events → events = []) :
    told (t.feed o b) = [] :=
  told_eq_nil fun u events taken => silent u events (takes_of_feed taken)

/-- A string reports its end, and one that is a name is then reported as such. -/
theorem entries_report_string :
    ((live outer (.string role text)).branch.report o b 0).entries =
      told ((live outer (.string role text)).feed o b) := by
  have told_eq : told ((live outer (.string role text)).feed o b) =
      if b = Byte.quote then (endString outer text role).2 else [] := by
    split
    · rename_i quote
      subst quote
      exact told_of_takes .stringEnd
    · rename_i notQuote
      refine told_feed_eq_nil fun u events takes => ?_
      cases takes with
      | stringEnd =>
          exact absurd rfl notQuote
      | _ =>
          rfl
  rw [told_eq]
  cases role with
  | value =>
      rw [branch, Branch.entries_plug (by rintro ⟨⟩)]
      exact Branch.entries_reportString
  | name members =>
      rw [branch, Branch.entries_plug (by rintro ⟨⟩)]
      change ((Branch.reportString _ o b).bind (Branch.reportAfterName _)).entries = _
      split
      · rename_i quote
        subst quote
        rfl
      · rename_i notQuote
        refine (Traced.entries_bind_of_quiet fun result answered => ?_).trans
          (Branch.entries_reportString.trans (if_neg notQuote))
        rw [Branch.outcome_reportString] at answered
        rcases result with ⟨child, _ | _⟩
        · rfl
        · exact absurd answered (Branch.feedString_ne_complete notQuote)

/-- After a backslash nothing is reported, neither by the rules nor by the tree. -/
theorem entries_report_escape :
    ((live outer (.escape role text)).branch.report o b 0).entries =
      told ((live outer (.escape role text)).feed o b) := by
  have told_eq : told ((live outer (.escape role text)).feed o b) = [] :=
    told_feed_eq_nil fun u events takes => by
      cases takes
      rfl
  rw [told_eq, branch]
  cases role with
  | value =>
      exact Branch.entries_plug (by rintro ⟨⟩)
  | name members =>
      rw [Branch.entries_plug (by rintro ⟨⟩)]
      change ((Traced.quiet (Branch.feedEscape _ o b)).bind (Branch.reportAfterName _)).entries = _
      refine Traced.entries_bind_of_quiet fun result answered => ?_
      rcases result with ⟨child, _ | _⟩
      · rfl
      · exact absurd answered Branch.feedEscape_ne_complete

/-- An array without elements may report its closing bracket, and an element that begins its opening bracket. -/
theorem entries_report_element :
    ((live outer (.element items)).branch.report o b 0).entries =
      told ((live outer (.element items)).feed o b) := by
  have empty : (Value.branchItems items.toList).isEmpty = items.isEmpty := Value.isEmpty_branchItems items
  rw [branch, Branch.entries_plug (by rintro ⟨⟩), feed_element, feedElement, Nat.zero_add]
  change (Branch.reportElement (.array _ items .element none) o outer.length b).entries = _
  rw [Branch.reportElement]
  by_cases space : o.isSpace b = true
  · rw [if_pos space, if_pos space]
    rfl
  · rw [if_neg space, if_neg space, Branch.array, empty]
    by_cases close : b = Byte.closeBracket ∧ items.isEmpty = true
    · rw [if_pos close, if_pos close]
      simp [Branch.reportClosing, closeArray, told, Value.branchItems_eq_map]
    · rw [if_neg close, if_neg close]
      by_cases brace : b = Byte.closeBrace
      · rw [if_pos brace, if_pos brace]
        rfl
      · rw [if_neg brace, if_neg brace]
        refine (Traced.entries_bind_of_quiet fun result answered => ?_).trans
          (entries_reportStart (.array items :: outer) space _)
        rw [Branch.outcome_reportStart] at answered
        rcases result with ⟨child, _ | _⟩
        · rfl
        · exact absurd answered Branch.feedStart_ne_complete

/-- Where a name is to come, only the end of an empty object is reported. -/
theorem entries_report_name :
    ((live outer (.name members)).branch.report o b 0).entries = told ((live outer (.name members)).feed o b) := by
  have empty : (Value.branchMembers members.toList).isEmpty = members.isEmpty := Value.isEmpty_branchMembers members
  rw [branch, Branch.entries_plug (by rintro ⟨⟩), feed_name, feedName]
  change (Branch.reportName (.object _ members .name none) o _ b).entries = _
  rw [Branch.reportName]
  by_cases space : o.isSpace b = true
  · rw [if_pos space, if_pos space]
    rfl
  · rw [if_neg space, if_neg space, Branch.object, empty]
    by_cases quote : b = Byte.quote
    · rw [if_pos quote, if_pos quote, quote, Branch.reportStart_quote]
      rfl
    · rw [if_neg quote, if_neg quote]
      by_cases close : b = Byte.closeBrace ∧ members.isEmpty = true
      · rw [if_pos close, if_pos close]
        simp [Branch.reportClosing, closeObject, told, Value.branchMembers_eq_map]
      · rw [if_neg close, if_neg close]
        split <;> rfl

/-- A number reports nothing, and the byte that ends it is reported by the container around it. -/
theorem entries_report_number :
    ((live outer (.number literal)).branch.report o b 0).entries =
      told ((live outer (.number literal)).feed o b) := by
  cases outer with
  | nil =>
      refine (told_feed_eq_nil fun u events takes => ?_).symm
      cases takes with
      | numberNext part fits =>
          rfl
      | numberEnd ends value rest =>
          exact (Settled.takes_document_iff.1 rest).2.2
  | cons f outer =>
      have container : (f.around (Frame.nameInside outer)
          (.scalar (Frame.nameInside (f :: outer)) .number .number literal)).kind ≠ some .number := by
        cases f <;> exact nofun
      change ((Frame.plug outer (f.around _ (.scalar _ .number .number literal))).report o b 0).entries = _
      rw [Branch.entries_plug container, Branch.report_around]
      change ((Traced.quiet (Branch.feedNumber (.scalar _ .number .number literal) o b)).bind _).entries = _
      by_cases part : Byte.inNumber b = true
      · rw [feed_number_of_inNumber part, Branch.feedNumber, if_pos part, Branch.scalar]
        cases o.extend literal b <;> rfl
      · by_cases ends : (o.isSpace b || Byte.followsNumber b) = true
        · rw [feedNumber_of_ends part ends, feed_number_of_ends (Bool.or_eq_true_iff.1 ends)]
          cases read : numberOf literal with
          | error fault =>
              rfl
          | ok v =>
              rcases numberOf_eq_ok_iff.1 read with ⟨x, -, rfl⟩
              -- The container has the byte again, as after any value.
              have again := (Settled.of (f :: outer) (.number x)).entries_report (o := o) (b := b)
              have closed : (f.closed (Frame.nameInside outer) (.number x)).kind ≠ some .number := by
                cases f <;> rintro ⟨⟩
              rw [Frame.branch_of_cons, Branch.entries_plug closed, Branch.report_closed] at again
              refine Eq.trans ((List.nil_append _).trans ?_) again
              have number : ((Value.number x).branch (Frame.nameInside (f :: outer))).kind = some .number := rfl
              rw [Branch.reportAfterValue, if_pos number, Frame.closeChild_around]
        · rw [feed_number_of_neither (Bool.not_eq_true _ ▸ part) (fun h => ends (Bool.or_eq_true_iff.2 h)),
            Branch.feedNumber, if_neg part, if_neg ends]
          rfl

/-- A byte for a document reports what it brings about. -/
theorem entries_report (t : Tree) : (t.branch.report o b 0).entries = told (t.feed o b) := by
  cases t with
  | settled s =>
      rw [feed_settled]
      exact s.entries_report
  | live outer focus =>
      cases focus with
      | blank =>
          rw [branch, Branch.entries_plug (by rintro ⟨⟩), feed_blank, Nat.zero_add]
          change (Branch.reportStart _ o outer.length b).entries = _
          by_cases space : o.isSpace b = true
          · rw [Branch.reportStart, if_pos space, if_pos space]
            rfl
          · rw [if_neg space]
            exact entries_reportStart outer space _
      | keyword word seen =>
          rw [branch, Branch.entries_plug (by rintro ⟨⟩)]
          exact (told_feed_eq_nil fun u events takes => by cases takes <;> rfl).symm
      | number literal =>
          exact entries_report_number
      | string role text =>
          exact entries_report_string
      | escape role text =>
          exact entries_report_escape
      | element items =>
          exact entries_report_element
      | name members =>
          exact entries_report_name
      | colon members called =>
          rw [branch, Branch.entries_plug (by rintro ⟨⟩)]
          exact (told_feed_eq_nil fun u events takes => by cases takes <;> rfl).symm

/-- A byte for a document reports what it brings about, and nothing if it is refused. -/
theorem entries_reportFeed (o : Options) (t : Tree) (b : UInt8) :
    (t.branch.reportFeed o b).entries = told (t.feed o b) :=
  (Branch.entries_reportFeed _).trans t.entries_report

end Tree

end JsonStream
