import MarkupQuery.Node
import Std.Data.HashSet

/-!
# Nodes found

What a query collects and what it answers. The nodes found are kept in order of discovery, none
twice, and a limit says when there are enough.

* `Found`, `Found.add`, `Found.addWhere`, which stops as soon as there are enough;
* `NodeList`, the answer of a query.
-/

namespace MarkupQuery

/-! ## Collecting -/

/-- Distinct nodes in order of discovery, with the number after which no more are wanted. -/
structure Found where
  nodes : Array NodeId
  /-- The members of `nodes`. -/
  seen : Std.HashSet NodeId
  limit : Option Nat

namespace Found

/-- Nothing found yet, with a limit if there is one. -/
def upTo (limit : Option Nat) : Found := ⟨#[], ∅, limit⟩

/-- There are as many nodes as are wanted. -/
def isFull (f : Found) : Bool := f.limit.any fun limit => limit ≤ f.nodes.size

/-- One more node, unless it is there already. -/
def add (f : Found) (n : NodeId) : Found :=
  if f.seen.contains n then f else { f with nodes := f.nodes.push n, seen := f.seen.insert n }

/-- The nodes of a list on which `p` holds, added in order until there are enough. -/
def addWhere (p : NodeId → Bool) : List NodeId → Found → Found
  | [], f => f
  | n :: ns, f =>
    if f.isFull then f else addWhere p ns (if p n then f.add n else f)

end Found

/-! ## Answers -/

/-- The answer of a query: nodes in the order found. -/
structure NodeList where
  toArray : Array NodeId
deriving DecidableEq

namespace NodeList

/-- The answer without nodes. -/
def empty : NodeList := ⟨#[]⟩

/-- The nodes, in order. -/
def toList (l : NodeList) : List NodeId := l.toArray.toList

/-- The number of nodes. -/
def length (l : NodeList) : Nat := l.toArray.size

/-- There are no nodes. -/
def isEmpty (l : NodeList) : Bool := l.toArray.isEmpty

/-- The node at a position. -/
def item? (l : NodeList) (i : Nat) : Option NodeId := l.toArray[i]?

/-- The node is among those found. -/
def contains (l : NodeList) (n : NodeId) : Bool := l.toArray.contains n

end NodeList

end MarkupQuery
