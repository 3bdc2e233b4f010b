import MarkupQuery.Node

/-!
# Markup trees

A tree keeps its nodes in one array, and the id of a node is its place there. Slot `0` holds the
document node. A node without parent is detached; it stays in the array and can be put back.

* `Tree`, `Tree.empty`, `Tree.size`, and four ways to create a detached node;
* getters that are total: an id that is not of the tree has no node, null links, no tag and no
  attributes (`Tree.node?`, `Tree.parent`, …, `Tree.attribute?`);
* `Tree.modify`, the one way in which a node is changed;
* `TreeError`, the refusals, with `TreeError.message`.
-/

namespace MarkupQuery

/-! ## Refusals -/

/-- Why a tree refuses a change. -/
inductive TreeError where
  /-- The id is not of this tree. -/
  | invalidNode (node : NodeId)
  /-- Attributes belong to elements only. -/
  | notAnElement (node : NodeId)
  /-- The document node was to move, or a node was to go below itself. -/
  | hierarchyRequest
  /-- The node is not a child of the given parent. -/
  | notAChild (node : NodeId)
deriving DecidableEq

/-- The wording of a refusal. -/
def TreeError.message : TreeError → String
  | invalidNode n => "Node " ++ n.text ++ " not found"
  | notAnElement n => "Node " ++ n.text ++ " is not an element"
  | hierarchyRequest => "Hierarchy request error"
  | notAChild n => "Node " ++ n.text ++ " is not a child"

/-! ## Trees -/

/-- An array of linked nodes with two tables of id values. -/
structure Tree where
  /-- All nodes, attached or not. -/
  nodes : Array Node
  /-- For each id value, the element first seen with it. An entry outlives the element's place in
  the document and its id. -/
  idIndex : Std.HashMap String NodeId
  /-- For each id value, the elements that took it and still had it when it was last given. -/
  idOwners : Std.HashMap String (List NodeId)

namespace Tree

/-- The tree of a document node alone. -/
def empty : Tree := ⟨#[{ content := .document }], ∅, ∅⟩

/-- The number of nodes, detached ones included. -/
def size (t : Tree) : Nat := t.nodes.size

/-- There is nothing but the document node. -/
def isEmpty (t : Tree) : Bool := t.size ≤ 1

/-- The ids of the nodes, in order of creation. -/
def ids (t : Tree) : List NodeId := (List.range t.size).map .slot

/-! ## Getters -/

/-- The node of an id. -/
def node? (t : Tree) : NodeId → Option Node
  | .null => none
  | .slot i => t.nodes[i]?

/-- The id is of this tree. -/
def contains (t : Tree) (n : NodeId) : Bool := (t.node? n).isSome

/-- The parent of a node; null for a node without parent and for an unknown id. -/
def parent (t : Tree) (n : NodeId) : NodeId := ((t.node? n).map (·.parent)).getD .null

/-- The first child of a node, or null. -/
def firstChild (t : Tree) (n : NodeId) : NodeId := ((t.node? n).map (·.firstChild)).getD .null

/-- The last child of a node, or null. -/
def lastChild (t : Tree) (n : NodeId) : NodeId := ((t.node? n).map (·.lastChild)).getD .null

/-- The sibling before a node, or null. -/
def prevSibling (t : Tree) (n : NodeId) : NodeId := ((t.node? n).map (·.prevSibling)).getD .null

/-- The sibling after a node, or null. -/
def nextSibling (t : Tree) (n : NodeId) : NodeId := ((t.node? n).map (·.nextSibling)).getD .null

/-- The element at a node. -/
def element? (t : Tree) (n : NodeId) : Option Element := (t.node? n).bind (·.content.element?)

/-- The node is an element of the tree. -/
def isElement (t : Tree) (n : NodeId) : Bool := (t.element? n).isSome

/-- The tag of an element. -/
def tag? (t : Tree) (n : NodeId) : Option String := (t.element? n).map (·.tag)

/-- The value of an attribute of an element. -/
def attribute? (t : Tree) (n : NodeId) (name : String) : Option String :=
  (t.element? n).bind (·.attributes.get? name)

/-- The number of attributes of an element; other nodes have none. -/
def attributeCount (t : Tree) (n : NodeId) : Nat :=
  ((t.element? n).map (·.attributes.size)).getD 0

/-- The node is an element whose attribute `id` has the value `v`. -/
def carriesId (t : Tree) (n : NodeId) (v : String) : Bool := t.attribute? n "id" = some v

/-- The text of a text node; other nodes have none of their own. -/
def ownText (t : Tree) (n : NodeId) : String := ((t.node? n).bind (·.content.text?)).getD ""

/-! ## Creation and change -/

/-- A new detached node. -/
def push (t : Tree) (content : Content) : NodeId × Tree :=
  (.slot t.size, { t with nodes := t.nodes.push { content } })

/-- A new detached element without attributes. -/
def createElement (t : Tree) (tag : String) : NodeId × Tree := t.push (.element (.ofTag tag))

/-- A new detached text node. -/
def createText (t : Tree) (data : String) : NodeId × Tree := t.push (.text data)

/-- A new detached comment. -/
def createComment (t : Tree) (data : String) : NodeId × Tree := t.push (.comment data)

/-- A new detached doctype. -/
def createDoctype (t : Tree) (name : String) : NodeId × Tree := t.push (.doctype name)

/-- The tree with one node changed; an id that is not of the tree changes nothing. -/
def modify (t : Tree) (n : NodeId) (f : Node → Node) : Tree :=
  match n with
  | .null => t
  | .slot i => { t with nodes := t.nodes.modify i f }

end Tree

end MarkupQuery
