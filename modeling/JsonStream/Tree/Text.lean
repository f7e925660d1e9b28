import JsonStream.Text.Dump
import JsonStream.Text.Json

/-!
# The texts of a tree

A tree is written in three ways: as plain JSON that can be decoded again, as JSON for data exchange, and as a
dump for people who look for faults. All three can be had at any time, and what is unfinished is left out of them
or stands as the views of the tree have it.
-/

namespace JsonStream

open Text (Dialect)

namespace Tree

/-- The tree as plain JSON, with null for what is unfinished. -/
def display (t : Tree) : List Char :=
  Dialect.plain.write t.visible

def exchange (t : Tree) : List Char :=
  Dialect.exchange.write t.filled

def dump (t : Tree) : String :=
  (Text.treeTerm t).flat

def dumpIndented (t : Tree) : String :=
  (Text.treeTerm t).indented 0

end Tree

def Session.dump (s : Session) : String :=
  (Text.sessionTerm s).flat

end JsonStream
