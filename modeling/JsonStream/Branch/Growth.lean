import JsonStream.Branch.Path

/-!
# Growing values

How a value compares with what it was before a byte. Whatever is there stays at its address; what has ended stays
as it is, and a container keeps its kind. Children are only added after those that have ended, and `Gains` lists
the places where that happens.
-/

namespace JsonStream.Branch

/-- What stays of a value inside another. Its kind need not, for a name that has ended starts over as the value of
the member that it names. -/
structure Keeps (p q : Branch) : Prop where
  ended : p.isComplete = true → q = p
  container : ∀ c, p.kind = some (.container c) → q.kind = some (.container c)

/-- The second value is the first with one child more at each of the places, as often as it is listed. -/
structure Grows (n m : Branch) (gaining : List Path) : Prop where
  kind : ∀ k, n.kind = some k → m.kind = some k
  stays : ∀ path p, n.at? path = some p → ∃ q, m.at? path = some q ∧ p.Keeps q
  children : ∀ path, ∃ added, m.childrenAt path = n.childrenAt path ++ added ∧
    added.length = gaining.count path

/-- The places that gain a child by one byte, after which the value is `n`. -/
inductive Gains (n : Branch) : List Path → Prop
  | none : Gains n []
  | one (path : Path) : Gains n [path]
  | two {path : Path} {i : Nat} {inner number : Branch} (place : n.at? (path ++ [i]) = some inner)
    (ended : inner.isComplete = true) (last : inner.children.getLast? = some number)
    (read : number.number?.isSome = true) (gained : (n.childrenAt path).getLast? = some inner) :
    Gains n [path ++ [i], path]

/-- What a byte makes of a value. No value that has ended changes, and of all others anywhere inside no more
than two gain a child, and not more than one each. -/
structure Growth (n m : Branch) : Prop where
  kind : ∀ k, n.kind = some k → m.kind = some k
  complete : n.isComplete = true → m = n
  chain : ∀ p ∈ n.chain, ∃ path q, n.at? path = some p ∧ m.at? path = some q ∧
    ∃ added, q.children = p.children ++ added ∧ added.length ≤ 1
  gaining : ∃ gaining, Gains m gaining ∧ Grows n m gaining

end JsonStream.Branch
