import JsonStream.Branch.Growth
import JsonStream.Proofs.Branch.Chain
import JsonStream.Proofs.Branch.Soundness
import JsonStream.Proofs.Session.Finish

/-!
# Trees only grow

A byte changes a tree along the chain of values in progress and nowhere else. Of each container on the chain it
leaves the children as they are; at most it adds one at the end. Two containers gain a child by the same byte only
if it ends a number and then the container of that number.

- `Branch.Grows.inside` — from the child in progress to the container around it
- `Frame.grows_plug`, `Frame.grows_of` — from the innermost place to the whole tree
- `Tree.growth_of_takes` — one byte
- `Session.tree_only_grows` — sessions and documents
-/

namespace JsonStream

variable {o : Options} {outer : List Frame} {b : UInt8} {t u : Tree} {events : List Event} {v : Value}
  {name : Option Bytes}

/-! ## Places inside a value -/

namespace Branch

variable {n m p q r : Branch} {g h : List Path} {front : List Branch} {i : Nat}

/-- A value without parts has no children anywhere. -/
theorem childrenAt_of_parts (none : n.parts = []) (path : Path) : n.childrenAt path = [] := by
  cases path with
  | nil =>
      exact (List.append_eq_nil_iff.1 none).1
  | cons i path =>
      rw [childrenAt, at?_cons, none]
      rfl

/-- An address depends on the part that it begins with only. -/
theorem at?_congr (same : n.parts[i]? = m.parts[i]?) (path : Path) : n.at? (i :: path) = m.at? (i :: path) := by
  rw [at?_cons, at?_cons, same]

theorem childrenAt_congr (same : n.parts[i]? = m.parts[i]?) (path : Path) :
    n.childrenAt (i :: path) = m.childrenAt (i :: path) := by
  rw [childrenAt, childrenAt, at?_congr same]

theorem at?_last (parts : n.parts = front ++ [p]) (path : Path) :
    n.at? (front.length :: path) = p.at? path := by
  rw [at?_cons, parts, List.getElem?_concat_length]
  rfl

theorem childrenAt_last (parts : n.parts = front ++ [p]) (path : Path) :
    n.childrenAt (front.length :: path) = p.childrenAt path := by
  rw [childrenAt, at?_last parts]
  rfl

theorem getElem?_concat_of_ne (other : i ≠ front.length) : (front ++ [p])[i]? = (front ++ [q])[i]? := by
  rcases Nat.lt_or_gt_of_ne other with before | beyond
  · rw [List.getElem?_append_left before, List.getElem?_append_left before]
  · have out : ∀ r : Branch, (front ++ [r]).length ≤ i := by
      intro r
      rw [List.length_append]
      exact beyond
    rw [List.getElem?_eq_none (out p), List.getElem?_eq_none (out q)]

theorem parts_of_active (active : n.active = some p) : n.parts = n.children ++ [p] := by
  rw [parts, active]
  rfl

/-- Beyond the children that have ended there is only the child in progress. -/
theorem active_of_parts (beyond : n.children.length ≤ i) (part : n.parts[i]? = some p) :
    i = n.children.length ∧ n.active = some p := by
  rw [parts, List.getElem?_append_right beyond] at part
  cases active : n.active with
  | none =>
      rw [active] at part
      cases part
  | some a =>
      rw [active, Option.toList_some, List.getElem?_singleton] at part
      split at part
      · rename_i first
        exact ⟨Nat.le_antisymm (Nat.le_of_sub_eq_zero first) beyond, part⟩
      · cases part

def activeParts (n : Branch) : List Branch :=
  (n.active.map parts).getD []

theorem childrenAt_beyond (beyond : n.children.length ≤ i) (inside : n.activeParts = []) (path : Path) :
    n.childrenAt (i :: path) = [] := by
  cases part : n.parts[i]? with
  | none =>
      rw [childrenAt, at?_cons, part]
      rfl
  | some a =>
      rcases active_of_parts beyond part with ⟨rfl, active⟩
      rw [activeParts, active] at inside
      rw [childrenAt_last (parts_of_active active)]
      exact childrenAt_of_parts inside path

/-- Every value on the chain has an address. -/
theorem exists_at?_of_mem_chain : (n : Branch) → p ∈ n.chain → ∃ path, n.at? path = some p
  | ⟨kind, number, text, name, children, stage, token, none⟩, mem => by
    obtain rfl := List.mem_singleton.1 mem
    exact ⟨[], rfl⟩
  | ⟨kind, number, text, name, children, stage, token, some child⟩, mem => by
    rcases List.mem_cons.1 mem with rfl | inside
    · exact ⟨[], rfl⟩
    · rcases exists_at?_of_mem_chain child inside with ⟨path, place⟩
      exact ⟨children.length :: path, (at?_last rfl path).trans place⟩

/-! ## What a value keeps -/

theorem Keeps.refl (p : Branch) : p.Keeps p :=
  ⟨fun _ => rfl, fun _ => id⟩

theorem Keeps.trans (first : p.Keeps q) (second : q.Keeps r) : p.Keeps r where
  ended complete := by
    obtain rfl := first.ended complete
    exact second.ended complete
  container c container := second.container c (first.container c container)

/-- Of a value in progress only the kind of a container must stay. -/
theorem Keeps.of_pending (pending : p.isComplete = false)
    (container : ∀ c, p.kind = some (.container c) → q.kind = some (.container c)) : p.Keeps q where
  ended complete := by
    rw [pending] at complete
    cases complete
  container := container

namespace Grows

theorem refl (n : Branch) : Grows n n [] where
  kind _ := id
  stays _ p place := ⟨p, place, .refl p⟩
  children _ := ⟨[], (List.append_nil _).symm, rfl⟩

theorem trans (first : Grows n m g) (second : Grows m r h) : Grows n r (g ++ h) where
  kind k known := second.kind k (first.kind k known)
  stays path p place := by
    rcases first.stays path p place with ⟨q, between, keeps⟩
    rcases second.stays path q between with ⟨q', after, keeps'⟩
    exact ⟨q', after, keeps.trans keeps'⟩
  children path := by
    rcases first.children path with ⟨added, between, count⟩
    rcases second.children path with ⟨added', after, count'⟩
    refine ⟨added ++ added', ?_, ?_⟩
    · rw [after, between, List.append_assoc]
    · rw [List.length_append, List.count_append, count, count']

/-- If the child in progress grows, the container around it grows. The child may end with that and be added to the
children, which is one more place that gains a child. -/
theorem inside (here : Nat) (grows : Grows p q g) (before : n.parts = front ++ [p])
    (after : m.parts = front ++ [q]) (pending : n.isComplete = false) (kind : m.kind = n.kind)
    (children : ∃ added, m.children = n.children ++ added ∧ added.length = here) :
    Grows n m (List.replicate here [] ++ g.map (front.length :: ·)) := by
  have kinds : ∀ k, n.kind = some k → m.kind = some k := by
    intro k known
    rw [kind, known]
  have same : ∀ i, i ≠ front.length → n.parts[i]? = m.parts[i]? := by
    intro i other
    rw [before, after, getElem?_concat_of_ne other]
  refine ⟨kinds, ?_, ?_⟩
  · intro path r place
    cases path with
    | nil =>
        cases place
        exact ⟨m, rfl, .of_pending pending fun c => kinds (.container c)⟩
    | cons i path =>
        by_cases last : i = front.length
        · subst last
          rw [at?_last before] at place
          rw [at?_last after]
          exact grows.stays path r place
        · rw [at?_congr (same i last)] at place
          exact ⟨r, place, .refl r⟩
  · intro path
    cases path with
    | nil =>
        have apart : (g.map (front.length :: ·)).count [] = 0 := by
          simp [List.count_eq_zero]
        rw [List.count_append, List.count_replicate_self, apart]
        exact children
    | cons i path =>
        have notHere : (List.replicate here ([] : Path)).count (i :: path) = 0 := by
          simp [List.count_eq_zero]
        rw [List.count_append, notHere, Nat.zero_add]
        by_cases last : i = front.length
        · subst last
          rw [childrenAt_last before, childrenAt_last after, List.count_map_of_injective _ _ List.cons_injective]
          exact grows.children path
        · have apart : (g.map (front.length :: ·)).count (i :: path) = 0 := by
            simp [List.count_eq_zero, Ne.symm last]
          rw [childrenAt_congr (same i last), apart]
          exact ⟨[], (List.append_nil _).symm, rfl⟩

/-- A value in progress grows if its children stay, nothing is inside the child in progress, and that child keeps its
place. -/
theorem of_children (pending : n.isComplete = false) (kind : ∀ k, n.kind = some k → m.kind = some k)
    (children : m.children = n.children) (before : n.activeParts = []) (after : m.activeParts = [])
    (active : ∀ a, n.active = some a → ∃ a', m.active = some a' ∧ a.Keeps a') : Grows n m [] := by
  have same : ∀ i, i < n.children.length → n.parts[i]? = m.parts[i]? := by
    intro i within
    rw [parts, parts, children, List.getElem?_append_left within, List.getElem?_append_left within]
  refine ⟨kind, ?_, ?_⟩
  · intro path p place
    cases path with
    | nil =>
        cases place
        exact ⟨m, rfl, .of_pending pending fun c => kind (.container c)⟩
    | cons i path =>
        by_cases within : i < n.children.length
        · rw [at?_congr (same i within)] at place
          exact ⟨p, place, .refl p⟩
        · cases part : n.parts[i]? with
          | none =>
              rw [at?_cons, part] at place
              cases place
          | some a =>
              rcases active_of_parts (Nat.not_lt.1 within) part with ⟨rfl, active_eq⟩
              rcases active a active_eq with ⟨a', active_eq', keeps⟩
              rw [at?_last (parts_of_active active_eq)] at place
              rw [← children, at?_last (parts_of_active active_eq')]
              cases path with
              | nil =>
                  cases place
                  exact ⟨a', rfl, keeps⟩
              | cons j path =>
                  have empty : a.parts = [] := by
                    rwa [activeParts, active_eq] at before
                  rw [at?_cons, empty] at place
                  cases place
  · intro path
    refine ⟨[], ?_, rfl⟩
    rw [List.append_nil]
    cases path with
    | nil =>
        exact children
    | cons i path =>
        by_cases within : i < n.children.length
        · exact (childrenAt_congr (same i within) path).symm
        · rw [childrenAt_beyond (Nat.not_lt.1 within) before,
            childrenAt_beyond (children ▸ Nat.not_lt.1 within) after]

/-- No child is in progress before the byte. -/
theorem of_passive (pending : n.isComplete = false) (kind : ∀ k, n.kind = some k → m.kind = some k)
    (children : m.children = n.children) (passive : n.active = none) (after : m.activeParts = []) :
    Grows n m [] := by
  refine of_children pending kind children ?_ after ?_
  · rw [activeParts, passive]
    rfl
  · intro a active
    rw [passive] at active
    cases active

end Grows

/-! ## What one byte makes of a value -/

/-- No place gains two children by one byte. -/
theorem Gains.nodup (gains : Gains n g) : g.Nodup := by
  cases gains with
  | none =>
      exact List.nodup_nil
  | one path =>
      exact List.nodup_singleton path
  | two place ended last read gained =>
      simp

/-- The law of growth from the places that gain a child. -/
theorem Growth.of_gains (gains : Gains m g) (grows : Grows n m g) : Growth n m where
  kind := grows.kind
  complete ended := by
    rcases grows.stays [] n rfl with ⟨q, place, keeps⟩
    cases place
    exact keeps.ended ended
  chain p mem := by
    rcases exists_at?_of_mem_chain n mem with ⟨path, place⟩
    rcases grows.stays path p place with ⟨q, after, -⟩
    rcases grows.children path with ⟨added, children, count⟩
    refine ⟨path, q, place, after, added, ?_, ?_⟩
    · rwa [childrenAt, childrenAt, place, after] at children
    · rw [count]
      exact List.nodup_iff_count_le_one.1 gains.nodup path
  gaining := ⟨g, gains, grows⟩

end Branch

/-! ## Down through the frames -/

namespace Frame

open Branch (Path Grows)

variable {n m : Branch} {g : List Path}

def children : Frame → List Branch
  | array items => Value.branchItems items.toList
  | object members _ => Value.branchMembers members.toList

def path : List Frame → Path
  | [] => []
  | f :: outer => path outer ++ [f.children.length]

theorem parts_around (f : Frame) : (f.around name n).parts = f.children ++ [n] := by
  cases f <;> rfl

theorem children_around (f : Frame) : (f.around name n).children = f.children := by
  cases f <;> rfl

theorem children_closed (f : Frame) (outer : List Frame) (v : Value) :
    (f.closed name v).children = f.children ++ [v.branch (nameInside (f :: outer))] := by
  rw [← @closeChild_around outer _ f .fresh v]
  exact congrArg (· ++ _) (children_around f)

/-- Closing a frame leaves the parts in their places: the child in progress becomes the last child. -/
theorem parts_closed (f : Frame) (outer : List Frame) (v : Value) :
    (f.closed name v).parts = f.children ++ [v.branch (nameInside (f :: outer))] := by
  have passive : (f.closed name v).active = none := by
    cases f <;> rfl
  rw [Branch.parts, passive, children_closed f outer]
  exact List.append_nil _

/-- Growth inside a child in progress is growth inside its container, one step further in. -/
theorem grows_around (name : Option Bytes) (f : Frame) (grows : Grows n m g) :
    Grows (f.around name n) (f.around name m) (g.map (f.children.length :: ·)) := by
  have pending : (f.around name n).isComplete = false := by
    cases f <;> rfl
  have kind : (f.around name m).kind = (f.around name n).kind := by
    cases f <;> rfl
  have children : (f.around name m).children = (f.around name n).children ++ [] := by
    rw [children_around, children_around, List.append_nil]
  exact grows.inside 0 (parts_around f) (parts_around f) pending kind ⟨[], children, rfl⟩

/-- The value in progress ends, and is the last child of the innermost container. -/
theorem grows_closed (f : Frame) (outer : List Frame) (ends : Grows n (v.branch (nameInside (f :: outer))) []) :
    Grows (f.around name n) (f.closed name v) [[]] := by
  have pending : (f.around name n).isComplete = false := by
    cases f <;> rfl
  have kind : (f.closed name v).kind = (f.around name n).kind := by
    cases f <;> rfl
  have children :
      (f.closed name v).children = (f.around name n).children ++ [v.branch (nameInside (f :: outer))] := by
    rw [children_around, children_closed f outer]
  exact ends.inside 1 (parts_around f) (parts_closed f outer v) pending kind ⟨_, children, rfl⟩

/-- Growth inside frames is growth of the whole, at the end of the way through them. -/
theorem grows_plug (outer : List Frame) (grows : Grows n m g) :
    Grows (plug outer n) (plug outer m) (g.map (path outer ++ ·)) := by
  induction outer generalizing n m g with
  | nil =>
      simpa only [plug, path, List.nil_append, List.map_id'] using grows
  | cons f outer ih =>
      have around := ih (grows_around (nameInside outer) f grows)
      simpa only [plug, path, List.map_map, Function.comp_def, List.append_assoc, List.singleton_append] using around

theorem grows_plug_nil (outer : List Frame) (grows : Grows n m []) : Grows (plug outer n) (plug outer m) [] :=
  grows_plug outer grows

/-- Addresses inside the frames, counted from the outside. -/
theorem at?_plug (inside : Path) : (plug outer n).at? (path outer ++ inside) = n.at? inside := by
  induction outer generalizing n inside with
  | nil =>
      rfl
  | cons f outer ih =>
      rw [plug, path, List.append_assoc, ih]
      exact Branch.at?_last (parts_around f) inside

theorem childrenAt_plug : (plug outer n).childrenAt (path outer) = n.children := by
  have place : (plug outer n).at? (path outer) = some n := by
    rw [← List.append_nil (path outer), at?_plug, Branch.at?_nil]
  rw [Branch.childrenAt, place]
  rfl

/-- Where a child is gained when the value inside the frames ends. -/
def gaining : List Frame → List Path
  | [] => []
  | _ :: outer => [path outer]

/-- A value that ends becomes a child of the container around it, if there is one. -/
theorem grows_of (ends : Grows n (v.branch (nameInside outer)) []) :
    Grows (plug outer n) (Settled.of outer v).branch (gaining outer) := by
  cases outer with
  | nil =>
      exact ends
  | cons f outer =>
      have closed : Grows (f.around (nameInside outer) n) (f.closed (nameInside outer) v) [[]] :=
        grows_closed f outer ends
      rw [branch_of_cons]
      simpa only [plug, gaining, List.map_cons, List.map_nil, List.append_nil] using grows_plug outer closed

end Frame

/-! ## One byte -/

def Settled.around : Settled → List Frame
  | document _ => []
  | element outer _ => outer
  | member outer _ => outer

theorem Settled.around_of (f : Frame) (outer : List Frame) (v : Value) :
    (Settled.of (f :: outer) v).around = outer := by
  cases f <;> rfl

namespace Tree

open Branch (Gains Grows Growth)
open JsonStream.Frame (gaining nameInside path plug)

variable {literal : Array UInt8}

/-! Values that end. -/

/-- An array that ends is one child more for the container around it. -/
theorem grows_array (outer : List Frame) (items : Array Value) (stage : Stage) :
    Grows (plug outer (.array (nameInside outer) items stage none)) (Settled.of outer (.array items.toList)).branch
      (gaining outer) :=
  Frame.grows_of (.of_passive rfl (fun _ => id) rfl rfl rfl)

theorem grows_object (outer : List Frame) (members : Array (Bytes × Value)) (stage : Stage) :
    Grows (plug outer (.object (nameInside outer) members stage none))
      (Settled.of outer (.object members.toList)).branch (gaining outer) :=
  Frame.grows_of (.of_passive rfl (fun _ => id) rfl rfl rfl)

/-- A string, a number or a keyword ends. -/
theorem grows_scalar (outer : List Frame) (v : Value) {stage : Stage} {token : Array UInt8}
    (childless : (v.branch (nameInside outer)).children = []) :
    Grows (plug outer (.scalar (nameInside outer) v.kind stage token)) (Settled.of outer v).branch
      (gaining outer) := by
  refine Frame.grows_of (.of_passive rfl ?_ childless rfl ?_)
  · rintro k ⟨⟩
    exact v.kind_branch
  · cases v <;> rfl

/-! Values that begin or go on. -/

/-- A string goes on. If it is a name, it is the child in progress of its object. -/
theorem grows_string (outer : List Frame) (role : Role) {stage stage' : Stage} {text text' : Array UInt8} :
    Grows (plug outer (role.branch (nameInside outer) stage text))
      (plug outer (role.branch (nameInside outer) stage' text')) [] := by
  apply Frame.grows_plug_nil
  cases role with
  | value =>
      exact .of_passive rfl (fun _ => id) rfl rfl rfl
  | name members =>
      refine .of_children rfl (fun _ => id) rfl rfl rfl ?_
      rintro a ⟨⟩
      exact ⟨_, rfl, .of_pending rfl nofun⟩

/-- A name starts over as the value that it names, or the value is to come. -/
theorem grows_member (outer : List Frame) (members : Array (Bytes × Value)) {a a' : Branch} {stage stage' : Stage}
    (before : a.parts = []) (after : a'.parts = []) (keeps : a.Keeps a') :
    Grows (plug outer (.object (nameInside outer) members stage (some a)))
      (plug outer (.object (nameInside outer) members stage' (some a'))) [] := by
  refine Frame.grows_plug_nil outer (.of_children rfl (fun _ => id) rfl before after ?_)
  rintro a ⟨⟩
  exact ⟨a', rfl, keeps⟩

/-- A value begins inside some frames. -/
theorem grows_of_begins (begins : Begins o outer b u events) :
    Grows (live outer .blank).branch u.branch [] := by
  have begun : ∀ m : Branch, m.children = [] → m.activeParts = [] →
      Grows (live outer .blank).branch (plug outer m) [] :=
    fun m children active => Frame.grows_plug_nil outer (.of_passive rfl nofun children rfl active)
  cases begins with
  | container c room =>
      cases c <;> exact begun _ rfl rfl
  | _ =>
      exact begun _ rfl rfl

/-! Any place. -/

/-- After a value nothing is gained but its container, if that ends. -/
theorem grows_of_settled {s : Settled} (takes : s.Takes o b u events) :
    Grows s.branch u.branch [] ∨ ∃ w : Value, u = settled (.of s.around w) ∧
      (w.branch (nameInside s.around)).children = s.branch.childrenAt (path s.around) ∧
      Grows s.branch u.branch (gaining s.around) := by
  cases takes with
  | space space =>
      exact .inl (.refl _)
  | @nextElement outer items =>
      exact .inl (Frame.grows_plug_nil outer (.of_passive rfl (fun _ => id) rfl rfl rfl))
  | @nextMember outer members =>
      exact .inl (Frame.grows_plug_nil outer (.of_passive rfl (fun _ => id) rfl rfl rfl))
  | @closeArray outer items =>
      have children : (Settled.element outer items).branch.childrenAt (path outer) = Value.branchItems items.toList :=
        Frame.childrenAt_plug
      exact .inr ⟨.array items.toList, rfl, children.symm, grows_array outer items .elementEnd⟩
  | @closeObject outer members =>
      have children : (Settled.member outer members).branch.childrenAt (path outer) =
          Value.branchMembers members.toList :=
        Frame.childrenAt_plug
      exact .inr ⟨.object members.toList, rfl, children.symm, grows_object outer members .memberEnd⟩

/-- Where a value ends inside frames, at most one place gains a child. -/
theorem gains_gaining (n : Branch) (outer : List Frame) : Gains n (gaining outer) := by
  cases outer with
  | nil =>
      exact .none
  | cons f outer =>
      exact .one _

/-- A number and the container that ends with it are gained at once. -/
theorem gains_of_closed {w : Value} {number : Branch}
    (last : (w.branch (nameInside outer)).children.getLast? = some number) (read : number.number?.isSome = true) :
    Gains (Settled.of outer w).branch (path outer :: gaining outer) := by
  cases outer with
  | nil =>
      exact .one _
  | cons f outer =>
      refine .two ?_ (w.isComplete_branch _) last read ?_
      · rw [Frame.branch_of_cons, Frame.at?_plug, Branch.at?_last (Frame.parts_closed f outer w)]
        rfl
      · rw [Frame.branch_of_cons, Frame.childrenAt_plug, Frame.children_closed f outer, List.getLast?_concat]

/-- A number ends, and the byte after it has its turn. -/
theorem growth_of_number (ended : numberOf literal = .ok v) (rest : (Settled.of outer v).Takes o b u events) :
    Growth (live outer (.number literal)).branch u.branch := by
  rcases numberOf_eq_ok_iff.1 ended with ⟨x, read, rfl⟩
  have number : Grows (live outer (.number literal)).branch (Settled.of outer (.number x)).branch
      (gaining outer) := grows_scalar outer (.number x) rfl
  cases outer with
  | nil =>
      rcases Settled.takes_document_iff.1 rest with ⟨-, rfl, -⟩
      exact .of_gains .none number
  | cons f outer =>
      have rest := grows_of_settled rest
      rw [Settled.around_of, Frame.branch_of_cons, Frame.childrenAt_plug, Frame.children_closed f outer,
        ← Frame.branch_of_cons] at rest
      rcases rest with grows | ⟨w, rfl, children, grows⟩
      · exact .of_gains (.one _) (number.trans grows)
      · have last := List.getLast?_concat (l := f.children) (a := (Value.number x).branch (nameInside (f :: outer)))
        rw [← children] at last
        exact .of_gains (gains_of_closed last rfl) (number.trans grows)

/-- What a byte makes of a tree. -/
theorem growth_of_takes (takes : Takes o t b u events) : Growth t.branch u.branch := by
  -- Only a value that ends is gained, and only a number leaves its last byte to its container.
  cases takes with
  | settled rest =>
      rcases grows_of_settled rest with grows | ⟨w, rfl, -, grows⟩
      · exact .of_gains .none grows
      · exact .of_gains (gains_gaining _ _) grows
  | blankBegins begins =>
      exact .of_gains .none (grows_of_begins begins)
  | @keywordNext outer word seen b next more =>
      exact .of_gains .none (Frame.grows_plug_nil outer (.of_passive rfl (fun _ => id) rfl rfl rfl))
  | @keywordEnd outer word seen b next last =>
      cases word with
      | null =>
          exact .of_gains (gains_gaining _ _) (grows_scalar outer .null rfl)
      | bool c =>
          exact .of_gains (gains_gaining _ _) (grows_scalar outer (.bool c) rfl)
  | @numberNext outer literal b part fits =>
      exact .of_gains .none (Frame.grows_plug_nil outer (.of_passive rfl (fun _ => id) rfl rfl rfl))
  | numberEnd ends value rest =>
      exact growth_of_number value rest
  | @stringEnd outer role text =>
      cases role with
      | value =>
          exact .of_gains (gains_gaining _ _) (grows_scalar outer (.string text.toList) rfl)
      | name members =>
          exact .of_gains .none (grows_member outer members rfl rfl (.of_pending rfl nofun))
  | @stringEscape outer role text =>
      exact .of_gains .none (grows_string outer role)
  | @stringPlain outer role text b notQuote notBackslash fits =>
      exact .of_gains .none (grows_string outer role)
  | @escape outer role text b c decoded fits =>
      exact .of_gains .none (grows_string outer role)
  | @elementClose outer =>
      exact .of_gains (gains_gaining _ _) (grows_array outer #[] .element)
  | @elementBegins outer items b u events begins =>
      -- The element has its place in the array before anything of it has come.
      have placed : Grows (live outer (.element items)).branch (live (.array items :: outer) .blank).branch [] :=
        Frame.grows_plug_nil outer (.of_passive rfl (fun _ => id) rfl rfl rfl)
      exact .of_gains .none (placed.trans (grows_of_begins begins))
  | @nameBegins outer members =>
      exact .of_gains .none (Frame.grows_plug_nil outer (.of_passive rfl (fun _ => id) rfl rfl rfl))
  | @nameClose outer =>
      exact .of_gains (gains_gaining _ _) (grows_object outer #[] .name)
  | @colon outer members called =>
      exact .of_gains .none (grows_member outer members rfl rfl (.refl _))
  | _ =>
      exact .of_gains .none (.refl _)

/-- The children of the root are only ever added to, byte by byte. -/
theorem children_of_takes (takes : Takes o t b u events) : t.branch.children <+: u.branch.children := by
  rcases (growth_of_takes takes).gaining with ⟨gaining, -, grows⟩
  rcases grows.children [] with ⟨added, children, -⟩
  exact ⟨added, children.symm⟩

/-- The children of the outermost value are from the start what they are at the end, as far as they go. -/
theorem children_of_feedAll {bytes : Bytes} (run : t.feedAll o bytes = .ok u) :
    t.branch.children <+: u.branch.children := by
  refine feedEach_induction (P := fun u => t.branch.children <+: u.branch.children) ?_ (List.prefix_refl _) run
  intro o u b w events before taken
  exact before.trans (children_of_takes (takes_of_feed taken))

end Tree

/-- The end of the input adds no children. -/
theorem Branch.children_of_finish {n m : Branch} (ended : n.finish = .ok m) : m.children = n.children := by
  unfold finish at ended
  split at ended
  · cases ended
    rfl
  · split at ended
    · cases ended
      rfl
    · cases ended
  · cases ended

/-! ## Sessions -/

namespace Session

/-- The children of the root are a prefix of those at any later time. -/
theorem children_of_feedAll {s u : Session} {bytes : Bytes} (run : s.feedAll bytes = .ok u) :
    s.current.branch.children <+: u.current.branch.children := by
  rcases feedAll_eq_ok_iff.1 run with ⟨t, treeRun, rfl⟩
  cases bytes with
  | nil =>
      exact List.prefix_refl _
  | cons b rest =>
      exact Tree.children_of_feedAll treeRun

/-- A document that is decoded can be broken off after any of its bytes. -/
theorem exists_feedAll_of_decode {before rest : Bytes} (decoded : (start o).decode (before ++ rest) = .ok v) :
    ∃ s last, (start o).feedAll before = .ok s ∧ s.feedAll rest = .ok last ∧ last.finish.answer = .ok v := by
  rw [decode, feedAll_append] at decoded
  cases run : (start o).feedAll before with
  | error failure =>
      rw [run] at decoded
      cases decoded
  | ok s =>
      rw [run] at decoded
      cases more : s.feedAll rest with
      | error failure =>
          simp only [Except.bind, more] at decoded
          cases decoded
      | ok last =>
          simp only [Except.bind, more] at decoded
          exact ⟨s, last, rfl, more, decoded⟩

/-- The tree of a session only grows. An accepted byte leaves every value at its place with the children it has; no
more than two values gain a child, and two only if a number and its container end at once. So at any time during the
decoding of a document the outermost value has some of the children that it has in the end, the first ones. -/
theorem tree_only_grows :
    (∀ (s : Session) (b : UInt8) (status : Status), (s.feed b).answer = .ok status →
      s.current.branch.feed s.options b = .ok ((s.feed b).session.current.branch, status) ∧
        Branch.Growth s.current.branch (s.feed b).session.current.branch) ∧
    ∀ o before rest v, (start o).decode (before ++ rest) = .ok v →
      ∃ s last, (start o).feedAll before = .ok s ∧ s.feedAll rest = .ok last ∧
        last.current.branch.finish = .ok (v.branch none) ∧
        s.current.branch.children <+: (v.branch none).children := by
  constructor
  · intro s b status accepted
    rcases feed_answer_eq_ok_iff.1 accepted with ⟨t, events, taken, rfl⟩
    rw [feed_of_ok taken]
    constructor
    · rw [Tree.feed_branch, taken]
      rfl
    · exact Tree.growth_of_takes (Tree.takes_of_feed taken)
  · intro o before rest v decoded
    rcases exists_feedAll_of_decode decoded with ⟨s, last, run, more, answer⟩
    have ended : last.current.branch.finish = .ok (v.branch none) := by
      rw [Tree.finish_branch, (finish_answer_eq_ok_iff last).1 answer]
      rfl
    refine ⟨s, last, run, more, ended, ?_⟩
    rw [Branch.children_of_finish ended]
    exact children_of_feedAll more

/-- The bracket after `[[1` ends the number and the inner array, and the outer array has its first child. -/
theorem tree_only_grows_nested :
    ∃ s : Session, (start {}).feedAll [0x5B, 0x5B, 0x31] = .ok s ∧
      (s.feed Byte.closeBracket).answer = .ok .pending ∧
      Branch.Growth s.current.branch (s.feed Byte.closeBracket).session.current.branch ∧
      s.current.branch.children.length = 0 ∧
      (s.feed Byte.closeBracket).session.current.branch.children.length = 1 ∧
      (start {}).decode [0x5B, 0x5B, 0x31, 0x5D, 0x5D] =
        .ok (.array [.array [.number ⟨false, 4607182418800017408, by decide⟩]]) ∧
      s.current.branch.children <+:
        ((Value.array [.array [.number ⟨false, 4607182418800017408, by decide⟩]]).branch none).children := by
  have run : (start {}).feedAll [0x5B, 0x5B, 0x31] =
      .ok ⟨{}, some (.live [.array #[], .array #[]] (.number #[0x31])), ⟨3, 1, 4⟩⟩ := by
    rfl
  have accepted : ((⟨{}, some (.live [.array #[], .array #[]] (.number #[0x31])), ⟨3, 1, 4⟩⟩ : Session).feed
      Byte.closeBracket).answer = .ok .pending := by
    decide +kernel
  have decoded : (start {}).decode ([0x5B, 0x5B, 0x31] ++ [0x5D, 0x5D]) =
      .ok (.array [.array [.number ⟨false, 4607182418800017408, by decide⟩]]) := by
    decide +kernel
  rcases tree_only_grows.2 _ _ _ _ decoded with ⟨s, last, sRun, -, -, children⟩
  obtain rfl := Except.ok.inj (run.symm.trans sRun)
  refine ⟨_, run, accepted, (tree_only_grows.1 _ _ _ accepted).2, rfl, ?_, decoded, children⟩
  decide +kernel

end Session

end JsonStream
