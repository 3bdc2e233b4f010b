import MarkupQuery.Tree.Walk

/-!
# Moving nodes

A node is put under a parent, before one of its children or at the end, or taken out of it. All
checks come before the first change, in a fixed order; after that only links are written.

* `Tree.wouldLoop`, `Tree.insertionFault?`, `Tree.removalFault?`: the refusals;
* `Tree.detach`, `Tree.place`: the two changes of links;
* `Tree.insert`, `Tree.append`, `Tree.remove`;
* `Tree.appendOrKeep`, which gives a tree even if the move is refused.
-/

namespace MarkupQuery.Tree

/-! ## Refusals -/

/-- `child` would lie below itself if it were put under `parent`. A node without children lies above
no node but itself. -/
def wouldLoop (t : Tree) (parent child : NodeId) : Bool :=
  child = parent || t.firstChild child ≠ .null && t.isInclusiveAncestor child parent

/-- Why `child` cannot be put under `parent`. The parent is looked at first, then the child, then
whether the child lies on the way up from the parent, and the reference last. -/
def insertionFault? (t : Tree) (parent child : NodeId) (before : Option NodeId) :
    Option TreeError :=
  if !t.contains parent then some (.invalidNode parent)
  else if !t.contains child then some (.invalidNode child)
  else if child = .root || t.wouldLoop parent child then some .hierarchyRequest
  else match before with
    | none => none
    | some reference =>
      if !t.contains reference then some (.invalidNode reference)
      else if t.parent reference ≠ parent then some (.notAChild reference)
      else none

/-- Why `child` cannot be taken out of `parent`. A detached node is a child of the null id. -/
def removalFault? (t : Tree) (parent child : NodeId) : Option TreeError :=
  if !t.contains child then some (.invalidNode child)
  else if t.parent child ≠ parent then some (.notAChild child)
  else none

/-! ## Links -/

/-- The tree in which `next` comes after `prev` among the children of `parent`. A null `prev` makes
`next` the first child, a null `next` makes `prev` the last. -/
def link (t : Tree) (parent prev next : NodeId) : Tree :=
  let t :=
    if prev = .null then t.modify parent fun n => { n with firstChild := next }
    else t.modify prev fun n => { n with nextSibling := next }
  if next = .null then t.modify parent fun n => { n with lastChild := prev }
  else t.modify next fun n => { n with prevSibling := prev }

/-- The tree with `child` out of its parent's children; nothing happens to a detached node. -/
def detach (t : Tree) (child : NodeId) : Tree :=
  let parent := t.parent child
  if parent = .null then t
  else
    (t.link parent (t.prevSibling child) (t.nextSibling child)).modify child fun n =>
      { n with parent := .null, prevSibling := .null, nextSibling := .null }

/-- The tree with `child` taken from its old place and put among the children of `parent`, before
the given child or at the end. -/
def place (t : Tree) (parent child : NodeId) (before : Option NodeId) : Tree :=
  let t := t.detach child
  let next := before.getD .null
  let prev := match before with
    | some reference => t.prevSibling reference
    | none => t.lastChild parent
  ((t.modify child fun n => { n with parent }).link parent prev child).link parent child next

/-! ## Operations -/

/-- Puts `child` under `parent`, before a child of it or at the end. A node stays where it is when
it is to go before itself. -/
def insert (t : Tree) (parent child : NodeId) (before : Option NodeId) : Except TreeError Tree :=
  match t.insertionFault? parent child before with
  | some e => .error e
  | none => .ok (if before = some child then t else t.place parent child before)

/-- Puts `child` at the end of the children of `parent`. -/
def append (t : Tree) (parent child : NodeId) : Except TreeError Tree :=
  t.insert parent child none

/-- The tree after `child` was to go to the end of the children of `parent`, with the refusal if
that is refused. The tree is then as it was. -/
def appendOrKeep (t : Tree) (parent child : NodeId) : Option TreeError × Tree :=
  match t.insertionFault? parent child none with
  | some e => (some e, t)
  | none => (none, t.place parent child none)

theorem appendOrKeep_eq (t : Tree) (parent child : NodeId) :
    t.appendOrKeep parent child =
      match t.append parent child with
      | .ok t' => (none, t')
      | .error e => (some e, t) := by
  unfold appendOrKeep append insert
  cases t.insertionFault? parent child none <;> rfl

/-- Takes `child` out of `parent`; its subtree stays with it. -/
def remove (t : Tree) (parent child : NodeId) : Except TreeError Tree :=
  match t.removalFault? parent child with
  | some e => .error e
  | none => .ok (t.detach child)

end MarkupQuery.Tree
