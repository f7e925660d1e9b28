import JsonStream.Branch.Skeleton
import JsonStream.Proofs.Branch.Soundness
import JsonStream.Session.Run

/-!
# Content does not govern

What has been decoded is never looked at again. Whether a byte is accepted, which fault refuses it and
whether it completes the document depend on the skeleton of a tree only, and so does the next skeleton.

- `Branch.Like` — values that differ in their content only, and `Branch.Alike`, results that do
- `Branch.alike_advance` — a byte for a value, down to the one in progress
- `Branch.bare_feed` — a byte for a document
- `Tree.results_branch`, `Session.skeleton_governs` — runs
-/

namespace JsonStream

namespace Branch

variable {o : Options} {b : UInt8} {n m : Branch}

/-! ## Values and results side by side -/

structure Like (n m : Branch) : Prop where
  stage : n.stage = m.stage
  childless : n.children.isEmpty = m.children.isEmpty
  token : remnant n.stage n.token = remnant m.stage m.token
  active : n.active.map skeleton = m.active.map skeleton
  kind : n.kind = m.kind

/-- Values that are alike have the same skeleton. -/
theorem Like.skeleton_eq (like : n.Like m) : n.skeleton = m.skeleton := by
  rw [n.skeleton_eq, m.skeleton_eq, like.childless, like.token, like.active, like.stage]

/-- Of two values in progress with the same skeleton the kinds are the same too. -/
theorem like_of_skeleton (left : n.Sound) (right : m.Sound) (live : n.stage ≠ none)
    (same : n.skeleton = m.skeleton) : n.Like m := by
  rw [n.skeleton_eq, m.skeleton_eq] at same
  injection same with stage childless token active
  refine ⟨stage, childless, token, active, ?_⟩
  rcases Option.ne_none_iff_exists'.1 live with ⟨waits, stage_eq⟩
  rw [left.kind_eq waits stage_eq, right.kind_eq waits (stage ▸ stage_eq)]

inductive Alike : Except Fault (Branch × Status) → Except Fault (Branch × Status) → Prop
  | error (fault : Fault) : Alike (.error fault) (.error fault)
  | pending {n m : Branch} (like : n.Like m) : Alike (.ok (n, .pending)) (.ok (m, .pending))
  | complete {n m : Branch} (like : n.Like m) (done : n.stage = none) :
      Alike (.ok (n, .complete)) (.ok (m, .complete))

namespace Alike

variable {x x' y y' : Except Fault (Branch × Status)}

/-- A choice by the same condition, on both sides. -/
theorem ite {c d : Prop} [Decidable c] [Decidable d] (same : c = d) (yes : Alike x x') (no : Alike y y') :
    Alike (if c then x else y) (if d then x' else y') := by
  subst same
  by_cases answer : c
  · rw [if_pos answer, if_pos answer]
    exact yes
  · rw [if_neg answer, if_neg answer]
    exact no

/-- One rule after another, where the second does the same with values that are alike. -/
theorem bind {f g : Branch × Status → Except Fault (Branch × Status)} (first : Alike x x')
    (pending : ∀ {n m : Branch}, n.Like m → Alike (f (n, .pending)) (g (m, .pending)))
    (complete : ∀ {n m : Branch}, n.Like m → Alike (f (n, .complete)) (g (m, .complete))) :
    Alike (x.bind f) (x'.bind g) := by
  cases first with
  | error fault =>
      exact .error fault
  | pending like =>
      exact pending like
  | complete like done =>
      exact complete like

/-- Whether a token has room for a byte is a matter of its length. -/
theorem extend {token token' : Array UInt8} {p q : Array UInt8 → Branch} (size : token.size = token'.size)
    (longer : (p (token.push b)).Like (q (token'.push b))) :
    Alike ((o.extend token b).map fun token => (p token, .pending))
      ((o.extend token' b).map fun token => (q token, .pending)) := by
  unfold Options.extend
  cases o.maxTokenLength with
  | none =>
      exact .pending longer
  | some limit =>
      by_cases full : limit ≤ token.size
      · simp only [← size, if_pos full]
        exact .error _
      · simp only [← size, if_neg full]
        exact .pending longer

/-- Without the content, results that are alike are equal. -/
theorem bare_eq (alike : Alike x x') : x.map bare = x'.map bare := by
  cases alike with
  | error fault =>
      rfl
  | pending like =>
      exact congrArg (fun shown => Except.ok (shown, Status.pending)) like.skeleton_eq
  | complete like done =>
      exact congrArg (fun shown => Except.ok (shown, Status.complete)) like.skeleton_eq

end Alike

/-! ## Each rule

The rules ask for the stage, the token and whether there are children. -/

namespace Like

theorem refl (n : Branch) : n.Like n :=
  ⟨rfl, rfl, rfl, rfl, rfl⟩

theorem begin (like : n.Like m) (token : n.token = m.token) (kind : Kind) (stage : Stage) :
    (n.begin kind stage).Like (m.begin kind stage) :=
  ⟨rfl, like.childless, congrArg (remnant (some stage)) token, like.active, rfl⟩

theorem complete (like : n.Like m) : n.complete.Like m.complete :=
  ⟨rfl, like.childless, rfl, rfl, like.kind⟩

/-- A name starting over as a member's value keeps the two alike, whatever the names are. -/
theorem promote (like : n.Like m) : n.promote.Like m.promote :=
  ⟨rfl, like.childless, rfl, like.active, rfl⟩

theorem withToken (like : n.Like m) (token : Array UInt8) : { n with token }.Like { m with token } :=
  ⟨like.stage, like.childless, congrArg (fun stage => remnant stage token) like.stage, like.active, like.kind⟩

/-- Strings in progress, or in progress again after an escape, are alike if they have the same length. -/
theorem string (like : n.Like m) {token token' : Array UInt8} (size : token.size = token'.size) :
    { n with token, stage := some .string }.Like { m with token := token', stage := some .string } :=
  ⟨rfl, like.childless, congrArg Remnant.length size, like.active, like.kind⟩

/-- A container waits for something else. -/
theorem container (like : n.Like m) {stage : Stage} (plain : ∀ token, remnant (some stage) token = .nothing) :
    { n with stage := some stage }.Like { m with stage := some stage } :=
  ⟨rfl, like.childless, (plain _).trans (plain _).symm, like.active, like.kind⟩

/-- Children in progress with the same skeleton may take the place of each other. -/
theorem withActive (like : n.Like m) {child child' : Branch} (active : child.skeleton = child'.skeleton) :
    { n with active := some child }.Like { m with active := some child' } :=
  ⟨like.stage, like.childless, like.token, congrArg some active, like.kind⟩

end Like

theorem Like.alike_complete (like : n.Like m) :
    Alike (.ok (n.complete, .complete)) (.ok (m.complete, .complete)) :=
  .complete like.complete rfl

/-- The first byte of a value. The tokens must be equal, for a number or a keyword begins with them. -/
theorem alike_feedStart (like : n.Like m) (token : n.token = m.token) (depth : Nat) :
    Alike (n.feedStart o depth b) (m.feedStart o depth b) := by
  unfold feedStart
  rw [token]
  refine .ite rfl (.pending like) ?_
  cases Container.openedBy? b with
  | some c =>
      exact .ite rfl (.error _) (.pending (like.begin token _ _))
  | none =>
      refine .ite rfl (.pending (like.begin token _ _)) ?_
      refine .ite rfl (.extend rfl ((like.begin token _ _).withToken _)) ?_
      cases Keyword.startingWith? b with
      | none =>
          exact .error _
      | some w =>
          exact .pending ((like.begin token _ _).withToken _)

/-- A byte inside a string. Of the token only the length matters, for the limit. -/
theorem alike_feedString (like : n.Like m) (size : n.token.size = m.token.size) (stage : n.stage = some .string) :
    Alike (n.feedString o b) (m.feedString o b) := by
  have stage' : m.stage = some .string := like.stage.symm.trans stage
  unfold feedString
  refine .ite rfl (.complete ⟨rfl, like.childless, rfl, rfl, like.kind⟩ rfl) ?_
  refine .ite rfl (.pending ⟨rfl, like.childless, congrArg Remnant.length size, like.active, like.kind⟩) ?_
  refine .extend size ⟨like.stage, like.childless, ?_, like.active, like.kind⟩
  rw [stage, stage', remnant, remnant, Array.size_push, Array.size_push, size]

/-- A byte after a backslash. Of the token only the length matters. -/
theorem alike_feedEscape (like : n.Like m) (size : n.token.size = m.token.size) :
    Alike (n.feedEscape o b) (m.feedEscape o b) := by
  unfold feedEscape
  cases Escape.decode? b with
  | none =>
      exact .error _
  | some decoded =>
      refine .extend size (like.string ?_)
      rw [Array.size_push, Array.size_push, size]

/-- A byte inside a number. Its token is all of it that has come, so the tokens must be equal. -/
theorem alike_feedNumber (like : n.Like m) (token : n.token = m.token) :
    Alike (n.feedNumber o b) (m.feedNumber o b) := by
  unfold feedNumber
  rw [token]
  refine .ite rfl (.extend rfl (like.withToken _)) ?_
  refine .ite rfl ?_ (.error _)
  cases Binary64.read? m.token.toList with
  | none =>
      exact .error _
  | some x =>
      exact .complete ⟨rfl, like.childless, rfl, rfl, like.kind⟩ rfl

/-- A byte inside a keyword. The token must be equal, for it is compared again. -/
theorem alike_feedKeyword (like : n.Like m) (token : n.token = m.token) (w : Keyword) :
    Alike (n.feedKeyword w b) (m.feedKeyword w b) := by
  unfold feedKeyword
  rw [token]
  refine .ite rfl ?_ (.error _)
  exact .ite rfl like.alike_complete (.pending (like.withToken _))

theorem alike_feedNameEnd (like : n.Like m) : Alike (n.feedNameEnd o b) (m.feedNameEnd o b) := by
  refine .ite rfl (.pending like) ?_
  exact .ite rfl (.pending (like.container fun _ => rfl)) (.error _)

/-- A byte after a child. Of the children nothing matters here. -/
theorem alike_feedAfterChild (like : n.Like m) (c : Container) :
    Alike (n.feedAfterChild c o b) (m.feedAfterChild c o b) := by
  refine .ite rfl (.pending like) ?_
  refine .ite rfl (.pending (like.container fun token => ?_)) ?_
  · cases c <;> rfl
  · refine .ite rfl like.alike_complete ?_
    exact .ite rfl (.error _) (.error _)

/-! What a container does with what has become of its child. -/

/-- What an object does with the name in progress, for names that are alike. -/
theorem alike_afterName (like : n.Like m) {x y : Except Fault (Branch × Status)} (child : Alike x y) :
    Alike (x.map n.afterName) (y.map m.afterName) := by
  cases child with
  | error fault =>
      exact .error fault
  | pending inside =>
      exact .pending (like.withActive inside.skeleton_eq)
  | complete inside done =>
      exact .pending ((like.withActive inside.promote.skeleton_eq).container fun _ => rfl)

/-- What a container does with the value in progress, for values that are alike. -/
theorem alike_afterValue (like : n.Like m) (c : Container) {x y : Except Fault (Branch × Status)}
    (child : Alike x y) : Alike (x.bind (n.afterValue c o b)) (y.bind (m.afterValue c o b)) := by
  refine child.bind (fun inside => .pending (like.withActive inside.skeleton_eq)) fun inside => ?_
  -- With one child more neither is without children, whatever the two children are.
  have one_more : ∀ (children : List Branch) (v : Branch), (children ++ [v]).isEmpty = false := by
    intro children v
    cases children <;> rfl
  have closed : ∀ {v w : Branch}, (n.closeChild v c.afterChild).Like (m.closeChild w c.afterChild) := by
    intro v w
    refine ⟨rfl, (one_more _ _).trans (one_more _ _).symm, ?_, rfl, like.kind⟩
    cases c <;> rfl
  refine .ite (congrArg (· = some Kind.number) inside.kind) ?_ (.pending closed)
  exact alike_feedAfterChild closed c

/-! Whether an empty container may close is the one question that is asked about children. -/

/-- A byte where a name is to come. Of the children it matters whether there are any. -/
theorem alike_feedName (like : n.Like m) (depth : Nat) :
    Alike (n.feedName o depth b) (m.feedName o depth b) := by
  refine .ite rfl (.pending like) ?_
  refine .ite rfl ?_ ?_
  · cases fresh.feedStart o (depth + 1) b with
    | error fault =>
        exact .error fault
    | ok result =>
        exact .pending (like.withActive rfl)
  · refine .ite ?_ like.alike_complete ?_
    · rw [like.childless]
    · exact .ite rfl (.error _) (.error _)

/-- A byte where an element is to come. Of the children it matters whether there are any. -/
theorem alike_feedElement (like : n.Like m) (depth : Nat) :
    Alike (n.feedElement o depth b) (m.feedElement o depth b) := by
  refine .ite rfl (.pending like) ?_
  refine .ite ?_ like.alike_complete ?_
  · rw [like.childless]
  · refine .ite rfl (.error _) ?_
    exact alike_afterValue like .array (alike_feedStart (.refl fresh) rfl (depth + 1))

theorem alike_feedMember (like : n.Like m) (depth : Nat) :
    Alike (n.feedMember o depth b) (m.feedMember o depth b) := by
  refine .ite rfl (.pending like) ?_
  exact alike_afterValue like .object (alike_feedStart (.refl fresh) rfl (depth + 1))

/-! ## Any byte -/

theorem AllSound.active {child : Branch} (sound : n.AllSound) (current : n.active = some child) :
    child.AllSound :=
  fun part inside => sound part (.active current inside)

theorem stage_ne_none_of_awaits {stage : Option Stage} {child : Branch} (awaits : Awaits stage (some child)) :
    child.stage ≠ none := by
  cases awaits with
  | name unnamed string =>
      rcases string with waits | waits <;> rw [waits] <;> nofun
  | nameEnd called =>
      nofun
  | member named live =>
      exact live
  | element unnamed live begun =>
      exact live

/-- Before a value nothing has been gathered of a token. -/
theorem Sound.token_of_start (sound : n.Sound) (start : n.stage = some .start) : n.token = #[] := by
  by_contra gathered
  rcases sound.stage_of_token gathered with other | other | other | ⟨w, other⟩
  all_goals rw [start] at other; cases other

/-- Where a skeleton keeps the bytes of a token, it keeps all of them. -/
theorem Like.token_eq (like : n.Like m) {stage : Stage} (stage_eq : n.stage = some stage)
    (all : ∀ token, remnant (some stage) token = .bytes token.toList) : n.token = m.token := by
  have same := like.token
  rw [← like.stage, stage_eq, all, all] at same
  exact Array.toList_inj.1 (Remnant.bytes.inj same)

/-- Where it keeps the length, that is the same. -/
theorem Like.size_eq (like : n.Like m) {stage : Stage} (stage_eq : n.stage = some stage)
    (all : ∀ token, remnant (some stage) token = .length token.size) : n.token.size = m.token.size := by
  have same := like.token
  rw [← like.stage, stage_eq, all, all] at same
  exact Remnant.length.inj same

/-- Children in progress with the same skeleton are both there or both missing. -/
theorem map_skeleton_cases {x y : Option Branch} (same : x.map skeleton = y.map skeleton) :
    (x = none ∧ y = none) ∨ ∃ n m, x = some n ∧ y = some m ∧ n.skeleton = m.skeleton := by
  cases x with
  | none =>
      exact .inl ⟨rfl, Option.map_eq_none_iff.1 same.symm⟩
  | some n =>
      rcases Option.map_eq_some_iff.1 same.symm with ⟨m, rfl, inside⟩
      exact .inr ⟨n, m, rfl, rfl, inside.symm⟩

/-- A byte for a value in progress: down to the innermost value in progress the two do the same. -/
theorem alike_advance (depth : Nat) : (n m : Branch) → n.AllSound → m.AllSound → n.stage ≠ none →
    n.skeleton = m.skeleton → Alike (n.advance o b depth) (m.advance o b depth)
  | ⟨kind, number, text, name, children, stage, token, active⟩,
    ⟨kind', number', text', name', children', stage', token', active'⟩, left, right, live, same => by
    have soundLeft := left _ (.refl _)
    have soundRight := right _ (.refl _)
    -- A child that was a number gives its last byte back, so kinds count too; the stages tell them.
    have like := like_of_skeleton soundLeft soundRight live same
    obtain rfl : stage = stage' := like.stage
    -- Both or neither have a child in progress, and the two children go on alike.
    have paired := map_skeleton_cases (x := active) (y := active') like.active
    have inside : ∀ child child', active = some child → active' = some child' →
        child.skeleton = child'.skeleton →
          Alike (child.advance o b (depth + 1)) (child'.advance o b (depth + 1)) := by
      rintro child child' rfl rfl same
      exact alike_advance (depth + 1) child child' (left.active rfl) (right.active rfl)
        (stage_ne_none_of_awaits soundLeft.awaits) same
    cases stage with
    | none =>
        exact absurd rfl live
    | some stage =>
        cases stage with
        | start =>
            have token := (soundLeft.token_of_start rfl).trans (soundRight.token_of_start rfl).symm
            exact alike_feedStart like token depth
        | keyword w =>
            exact alike_feedKeyword like (like.token_eq rfl fun _ => rfl) w
        | number =>
            exact alike_feedNumber like (like.token_eq rfl fun _ => rfl)
        | string =>
            exact alike_feedString like (like.size_eq rfl fun _ => rfl) rfl
        | escape =>
            exact alike_feedEscape like (like.size_eq rfl fun _ => rfl)
        | elementEnd =>
            exact alike_feedAfterChild like .array
        | nameEnd =>
            exact alike_feedNameEnd like
        | memberEnd =>
            exact alike_feedAfterChild like .object
        | element =>
            rcases paired with ⟨rfl, rfl⟩ | ⟨child, child', rfl, rfl, sameInside⟩
            · exact alike_feedElement like depth
            · exact alike_afterValue like .array (inside child child' rfl rfl sameInside)
        | name =>
            rcases paired with ⟨rfl, rfl⟩ | ⟨child, child', rfl, rfl, sameInside⟩
            · exact alike_feedName like depth
            · exact alike_afterName like (inside child child' rfl rfl sameInside)
        | member =>
            rcases paired with ⟨rfl, rfl⟩ | ⟨child, child', rfl, rfl, sameInside⟩
            · exact alike_feedMember like depth
            · exact alike_afterValue like .object (inside child child' rfl rfl sameInside)

/-! ## A byte for a document -/

theorem advance_of_done (done : n.stage = none) (depth : Nat) : n.advance o b depth = n.feedDone o b := by
  rcases n with ⟨kind, number, text, name, children, stage, token, active⟩
  cases done
  rfl

theorem isComplete_iff : n.isComplete = true ↔ n.stage = none :=
  Option.isNone_iff_eq_none

theorem feed_of_done (done : n.stage = none) : n.feed o b = n.feedDone o b := by
  have complete : ¬ n.isComplete = false := by
    rw [isComplete_iff.2 done]
    nofun
  rw [feed, advance_of_done done, feedDone]
  split
  · exact if_neg fun ended => complete ended.2.1
  · rfl

/-- After the document nothing of its content matters. -/
theorem bare_feedDone (same : n.skeleton = m.skeleton) :
    (n.feedDone o b).map bare = (m.feedDone o b).map bare := by
  unfold feedDone
  split
  · exact congrArg (fun shown => Except.ok (shown, Status.complete)) same
  · rfl

/-- A byte for a document comes to the same whatever has been decoded before. -/
theorem bare_feed (left : n.AllSound) (right : m.AllSound) (same : n.skeleton = m.skeleton) :
    (n.feed o b).map bare = (m.feed o b).map bare := by
  have sameStage : n.stage = m.stage := by
    rw [n.skeleton_eq, m.skeleton_eq] at same
    exact (Skeleton.mk.inj same).1
  by_cases done : n.stage = none
  · rw [feed_of_done done, feed_of_done (sameStage.symm.trans done)]
    exact bare_feedDone same
  · have alike := alike_advance (o := o) (b := b) 0 n m left right done same
    have complete : n.isComplete = m.isComplete := congrArg Option.isNone sameStage
    rw [feed, feed, complete]
    generalize n.advance o b 0 = x, m.advance o b 0 = y at alike
    cases alike with
    | error fault =>
        rfl
    | pending like =>
        exact (Alike.pending like).bare_eq
    | @complete u v like ended =>
        -- Both have a number as their document and look at the byte again, or neither has.
        have kind : (u.kind = some .number) = (v.kind = some .number) := congrArg (· = some Kind.number) like.kind
        simp only [Except.bind, kind]
        split
        · rw [advance_of_done ended, advance_of_done (like.stage.symm.trans ended)]
          exact bare_feedDone like.skeleton_eq
        · exact (Alike.complete like ended).bare_eq

end Branch

/-! ## Runs -/

/-- Results that look the same are the same fault, or both results. -/
theorem eq_of_map_eq {α β : Type} {x y : Except Fault α} {f : α → β} (same : x.map f = y.map f) :
    (∃ fault, x = .error fault ∧ y = .error fault) ∨ ∃ a a', x = .ok a ∧ y = .ok a' ∧ f a = f a' := by
  cases x with
  | error fault =>
      cases y with
      | error fault' =>
          cases same
          exact .inl ⟨fault, rfl, rfl⟩
      | ok a' =>
          cases same
  | ok a =>
      cases y with
      | error fault' =>
          cases same
      | ok a' =>
          exact .inr ⟨a, a', rfl, rfl, Except.ok.inj same⟩

namespace Tree

variable {o : Options} {b : UInt8} {t u : Tree}

/-- One byte, for two trees that sessions can come to and that have the same skeleton. -/
theorem bare_feed (left : t.Placed) (right : u.Placed) (same : t.branch.skeleton = u.branch.skeleton) :
    (t.feed o b).map (fun after => Branch.bare after.branch) =
      (u.feed o b).map fun after => Branch.bare after.branch := by
  have step := Branch.bare_feed (o := o) (b := b) (allSound_branch left) (allSound_branch right) same
  rw [feed_branch, feed_branch] at step
  generalize t.feed o b = x, u.feed o b = y at step ⊢
  cases x <;> cases y <;> exact step

/-- Trees with the same skeleton come to the same, byte by byte, under whatever options each byte is fed. -/
theorem results_branch (left : t.Placed) (right : u.Placed) (same : t.branch.skeleton = u.branch.skeleton)
    (steps : List (Options × UInt8)) : t.branch.results steps = u.branch.results steps := by
  induction steps generalizing t u with
  | nil =>
      rfl
  | cons first rest ih =>
      rcases first with ⟨o, b⟩
      rw [Branch.results, Branch.results, feed_branch, feed_branch]
      rcases eq_of_map_eq (bare_feed (o := o) (b := b) left right same) with
        ⟨fault, fed, fed'⟩ | ⟨after, after', fed, fed', shown⟩
      · rw [fed, fed']
      · -- Both trees are places that bytes can lead to, so the run goes on from them.
        have next := ih (placed_of_takes left (takes_of_feed fed)) (placed_of_takes right (takes_of_feed fed'))
          (congrArg Prod.fst shown)
        rw [fed, fed']
        exact congrArg₂ List.cons (congrArg Except.ok shown) next

end Tree

namespace Session

variable {s r : Session}

/-- What a session makes of bytes is what its tree makes of them from the outside in. -/
theorem results_eq (s : Session) (bytes : Bytes) :
    s.results bytes = s.current.branch.results (bytes.map fun b => (s.options, b)) := by
  induction bytes generalizing s with
  | nil =>
      rfl
  | cons b rest ih =>
      rw [List.map_cons, Branch.results, Tree.feed_branch, results]
      cases fed : s.current.feed s.options b with
      | error fault =>
          rw [feed_of_error fed]
          rfl
      | ok after =>
          rcases after with ⟨t, events⟩
          rw [feed_of_ok fed]
          exact congrArg _ (ih ⟨s.options, some t, s.position.advance b⟩)

/-- Content does not govern. Two sessions whose trees have the same skeleton, however the bytes and the options
that have led to them differ, come to the same with whatever bytes follow: the same statuses and the same
skeletons up to the first byte that is refused, and the same cause for it. -/
theorem skeleton_governs {first second : List (Options × UInt8)}
    (left : Tree.empty.feedEach first = .ok s.current) (right : Tree.empty.feedEach second = .ok r.current)
    (same : s.current.branch.skeleton = r.current.branch.skeleton) :
    (s.options = r.options → ∀ bytes, s.results bytes = r.results bytes) ∧
      ∀ steps, s.current.branch.results steps = r.current.branch.results steps := by
  have alike := Tree.results_branch (Tree.placed_of_feedEach left) (Tree.placed_of_feedEach right) same
  refine ⟨fun options bytes => ?_, alike⟩
  rw [results_eq, results_eq, options]
  exact alike _

/-- After `{"a":"x` and after `{"bc":"y` the same bytes do the same. -/
theorem skeleton_governs_other_name :
    ∃ s r,
      (start {}).feedAll [Byte.openBrace, Byte.quote, 0x61, Byte.quote, Byte.colon, Byte.quote, 0x78] = .ok s ∧
      (start {}).feedAll [Byte.openBrace, Byte.quote, 0x62, 0x63, Byte.quote, Byte.colon, Byte.quote, 0x79] =
        .ok r ∧
      s.current ≠ r.current ∧ s.current.branch.skeleton = r.current.branch.skeleton ∧
      ∀ bytes, s.results bytes = r.results bytes := by
  have left : (start {}).feedAll [Byte.openBrace, Byte.quote, 0x61, Byte.quote, Byte.colon, Byte.quote, 0x78] =
      .ok ⟨{}, some (.live [.object #[] [0x61]] (.string .value #[0x78])), ⟨7, 1, 8⟩⟩ := by
    rfl
  have right : (start {}).feedAll
      [Byte.openBrace, Byte.quote, 0x62, 0x63, Byte.quote, Byte.colon, Byte.quote, 0x79] =
      .ok ⟨{}, some (.live [.object #[] [0x62, 0x63]] (.string .value #[0x79])), ⟨8, 1, 9⟩⟩ := by
    rfl
  refine ⟨_, _, left, right, nofun, rfl, ?_⟩
  exact (skeleton_governs (current_of_feedAll left).1 (current_of_feedAll right).1 rfl).1 rfl

end Session

end JsonStream
