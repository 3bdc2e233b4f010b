import MarkupQuery.Query.Found
import MarkupQuery.Query.Targets

/-!
# Searching

A search finds the elements below a context that a selector describes. It goes through the
alternatives from left to right, and through each chain from its first compound: the nodes that
match so far are the left side of the next combinator. A limit on the answer stops the search early.

* `QueryOptions`: limit, use of the id index, reuse of the list of elements below the context;
* `Search`: tree, context, id index and options; `Search.scope`, `Search.indexed?`;
* `Search.collect` below a node, `Search.step` for each compound after the first;
* `Search.run`: the answer.

The id index is asked only when one node is wanted from the whole document, and its answer is
checked. It may be any function.
-/

namespace MarkupQuery

/-! ## Options -/

/-- What a query may be told. -/
structure QueryOptions where
  /-- The number of nodes after which to stop. -/
  limit : Option Nat := none
  /-- Ask the id index when a single node is wanted from the document. -/
  useIdIndex : Bool := true
  /-- List the elements below the context once and use the list again. -/
  cacheDescendants : Bool := true
deriving DecidableEq

/-- The options under which a query stops at its first node. -/
def QueryOptions.firstOnly : QueryOptions := { limit := some 1 }

/-! ## Searches -/

/-- A tree, the node below which to search, an id index and options. -/
structure Search where
  tree : Tree
  context : NodeId
  /-- The element that an id value is said to belong to alone. -/
  lookup : String → Option NodeId
  options : QueryOptions

/-- The elements below the context, once they have been listed. -/
abbrev Memo := Option (List NodeId)

namespace Search

variable (q : Search)

/-- The elements below the context: listed anew, or as remembered. -/
def scope : StateM Memo (List NodeId) :=
  if q.options.cacheDescendants then do
    match ← get with
    | some nodes => return nodes
    | none =>
      let nodes := q.tree.descendants q.context
      set (some nodes)
      return nodes
  else
    return q.tree.descendants q.context

/-- The node that the id index gives for a compound, if it was to be asked and the node still has
the id, lies below the context and meets the whole compound. -/
def indexed? (c : Compound) : Option NodeId :=
  if q.options.useIdIndex && q.options.limit = some 1 && q.context = .root then
    c.id?.bind fun v => (q.lookup v).filter fun n =>
      q.tree.carriesId n v && q.tree.isDescendantOf n q.context && c.holdsAt q.tree n
  else
    none

/-- Adds the nodes below `root` that meet a compound. For the context itself the index is asked
first, and its elements may be remembered. -/
def collect (root : NodeId) (c : Compound) (into : Found) : StateM Memo Found := do
  if root = q.context then
    match q.indexed? c with
    | some n => return into.add n
    | none => return into.addWhere (c.holdsAt q.tree) (← q.scope)
  else
    return into.addWhere (c.holdsAt q.tree) (q.tree.descendants root)

/-- Adds the nodes below any node of a list that meet a compound. The second argument holds the
nodes that have been walked over: the subtree of such a node has been walked too, and brings
nothing new. -/
def collectBelow (c : Compound) :
    List NodeId → Std.HashSet NodeId → Found → StateM Memo Found
  | [], _, into => return into
  | n :: left, walked, into =>
    if into.isFull then return into
    else if walked.contains n then collectBelow c left walked into
    else do
      let into ← q.collect n c into
      collectBelow c left (walked.insertMany (q.tree.descendants n)) into

/-- Adds the nodes below the context that meet a compound and that a combinator leads to from the
nodes on the left. -/
def step (left : List NodeId) (k : Combinator) (c : Compound) (into : Found) :
    StateM Memo Found := do
  match k with
  | .descendant => q.collectBelow c left ∅ into
  | k =>
    let targets := k.targets q.tree left
    return into.addWhere (fun n => targets.contains n && c.holdsAt q.tree n) (← q.scope)

/-- Goes along a chain from the nodes on the left. All nodes are kept until the last compound, whose
nodes are added. -/
def follow (left : List NodeId) (k : Combinator) (c : Compound) :
    List (Combinator × Compound) → Found → StateM Memo Found
  | [], into => q.step left k c into
  | (k', c') :: rest, into => do
    let found ← q.step left k c (.upTo none)
    follow found.nodes.toList k' c' rest into

/-- Adds the nodes that an alternative describes. -/
def addAlternative (a : Alternative) (into : Found) : StateM Memo Found :=
  match a.tail with
  | [] => q.collect q.context a.head into
  | (k, c) :: rest => do
    let found ← q.collect q.context a.head (.upTo none)
    q.follow found.nodes.toList k c rest into

/-- Adds the nodes of each alternative in turn, until there are enough. -/
def addAlternatives : List Alternative → Found → StateM Memo Found
  | [], into => return into
  | a :: as, into =>
    if into.isFull then return into
    else do addAlternatives as (← q.addAlternative a into)

/-- The nodes that a selector describes. -/
def run (s : Selector) : NodeList :=
  ⟨((q.addAlternatives s.alternatives (.upTo q.options.limit)).run none).1.nodes⟩

end Search

end MarkupQuery
