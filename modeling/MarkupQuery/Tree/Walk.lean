import MarkupQuery.Tree.Basic

/-!
# Walks

Walks along the links of a tree: down over children, up over parents, and through a subtree in
document order. Each walk takes at most as many steps as the tree has nodes, which is enough when
the links make a forest.

* `Tree.children`, from `Tree.siblingsFrom`;
* `Tree.isInclusiveAncestor`, `Tree.isDescendantOf`, `Tree.isConnected`, `Tree.top`;
* `Tree.preorder`: all nodes of a subtree; `Tree.textContent`;
* `Tree.descendants`: the elements below a node that are reached through elements only.
-/

namespace MarkupQuery.Tree

/-! ## Children -/

/-- The run of siblings that starts at a node, of at most `fuel` nodes. -/
def siblingsFrom (t : Tree) : Nat → NodeId → List NodeId
  | 0, _ => []
  | fuel + 1, n => if t.contains n then n :: t.siblingsFrom fuel (t.nextSibling n) else []

/-- The children of a node, in order. -/
def children (t : Tree) (n : NodeId) : List NodeId := t.siblingsFrom t.size (t.firstChild n)

/-! ## Ancestors -/

/-- `a` is met on the way up that starts at a node, within `fuel` steps. -/
def climbsTo (t : Tree) (a : NodeId) : Nat → NodeId → Bool
  | 0, _ => false
  | fuel + 1, n =>
    if n = .null then false else if n = a then true else t.climbsTo a fuel (t.parent n)

/-- `a` is the node `n` or one of its ancestors. -/
def isInclusiveAncestor (t : Tree) (a n : NodeId) : Bool := t.climbsTo a (t.size + 1) n

/-- The node `n` lies strictly below `a`. -/
def isDescendantOf (t : Tree) (n a : NodeId) : Bool := t.isInclusiveAncestor a (t.parent n)

/-- The node is attached to the document. -/
def isConnected (t : Tree) (n : NodeId) : Bool := t.isInclusiveAncestor .root n

/-- The last node of the way up that starts at a node, within `fuel` steps. -/
def topFrom (t : Tree) : Nat → NodeId → NodeId
  | 0, n => n
  | fuel + 1, n => if t.parent n = .null then n else t.topFrom fuel (t.parent n)

/-- The node without parent above a node. -/
def top (t : Tree) (n : NodeId) : NodeId := t.topFrom t.size n

/-! ## Subtrees -/

/-- The subtrees of the nodes on the stack in document order, at most `fuel` nodes. -/
def preorderFrom (t : Tree) : Nat → List NodeId → List NodeId
  | 0, _ => []
  | _ + 1, [] => []
  | fuel + 1, n :: stack =>
    if t.contains n then n :: t.preorderFrom fuel (t.children n ++ stack)
    else t.preorderFrom fuel stack

/-- A node and all nodes below it, in document order. -/
def preorder (t : Tree) (n : NodeId) : List NodeId := t.preorderFrom t.size [n]

/-- The texts of a subtree, joined in document order. -/
def textContent (t : Tree) (n : NodeId) : String := String.join ((t.preorder n).map t.ownText)

/-! ## Visible descendants -/

/-- A stack with one more id on top, unless that id is null. -/
def pushLink (n : NodeId) (stack : List NodeId) : List NodeId :=
  if n = .null then stack else n :: stack

/-- The elements still to come when the nodes on the stack are yet to be visited, each with the
siblings after it. Only elements are entered. -/
def descendantsFrom (t : Tree) : Nat → List NodeId → List NodeId
  | 0, _ => []
  | _ + 1, [] => []
  | fuel + 1, n :: stack =>
    let later := pushLink (t.nextSibling n) stack
    if t.isElement n then n :: t.descendantsFrom fuel (pushLink (t.firstChild n) later)
    else t.descendantsFrom fuel later

/-- The elements strictly below a node with nothing but elements in between, in document order. The
node itself may be of any kind. -/
def descendants (t : Tree) (n : NodeId) : List NodeId :=
  t.descendantsFrom t.size (pushLink (t.firstChild n) [])

end MarkupQuery.Tree
