import MarkupQuery.Selector.Basic
import MarkupQuery.Tree.Walk
import Std.Data.HashSet

/-!
# Targets of a combinator

The nodes that a child or sibling combinator leads to from a list of nodes, as a set. The later
siblings of a node are taken up to the first one that is in the set already: the siblings after
that one were taken together with it.

* `Tree.addFollowing`: the later siblings;
* `Combinator.addTargets` from one node, `Combinator.targets` from a list.
-/

namespace MarkupQuery

/-- The set together with the run of siblings that starts at a node, up to the first one that it
holds, and of at most `fuel` nodes. -/
def Tree.addFollowing (t : Tree) : Nat → NodeId → Std.HashSet NodeId → Std.HashSet NodeId
  | 0, _, set => set
  | fuel + 1, n, set =>
    if n = .null || set.contains n then set
    else t.addFollowing fuel (t.nextSibling n) (set.insert n)

namespace Combinator

/-- The set together with what the combinator leads to from a node. Below a node lie whole subtrees,
which are walked and not collected. -/
def addTargets (t : Tree) (k : Combinator) (set : Std.HashSet NodeId) (n : NodeId) :
    Std.HashSet NodeId :=
  match k with
  | descendant => set
  | child => set.insertMany (t.children n)
  | adjacentSibling => if t.nextSibling n = .null then set else set.insert (t.nextSibling n)
  | generalSibling => t.addFollowing t.size (t.nextSibling n) set

/-- What the combinator leads to from any node of a list. -/
def targets (t : Tree) (k : Combinator) (left : List NodeId) : Std.HashSet NodeId :=
  left.foldl (k.addTargets t) ∅

end Combinator

end MarkupQuery
