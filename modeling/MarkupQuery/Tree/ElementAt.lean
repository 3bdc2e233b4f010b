import MarkupQuery.Tree.Walk

/-!
# Elements of a tree

A node known to be an element of a given tree, with what callers ask of it: tag, attributes, words
of its class, text, and the elements around it.

* `ElementAt`, `Tree.elementAt?`;
* `ElementAt.attribute?`, `ElementAt.attributeOrEmpty`, `ElementAt.hasAttribute`;
* `ElementAt.parent?`, `ElementAt.children`.
-/

namespace MarkupQuery

/-- An element of the tree `t`. -/
structure ElementAt (t : Tree) where
  id : NodeId
  data : Element
  /-- The data is what the tree holds at the id. -/
  element?_id : t.element? id = some data

/-- The element of `t` at a node, if the node is one. -/
def Tree.elementAt? (t : Tree) (n : NodeId) : Option (ElementAt t) :=
  match h : t.element? n with
  | some e => some ⟨n, e, h⟩
  | none => none

namespace ElementAt

variable {t : Tree} (e : ElementAt t)

/-- The tag. -/
def tag : String := e.data.tag

/-- The value of an attribute. -/
def attribute? (name : String) : Option String := e.data.attributes.get? name

/-- The value of an attribute; an absent one reads as the empty text. -/
def attributeOrEmpty (name : String) : String := (e.attribute? name).getD ""

/-- The element has the attribute. -/
def hasAttribute (name : String) : Bool := e.data.attributes.contains name

/-- All attributes, in order. -/
def attributes : List Attribute := e.data.attributes.entries.toList

/-- The value of the attribute `id`. -/
def idValue? : Option String := e.data.id?

/-- The attribute `class` as written. -/
def className : String := e.attributeOrEmpty "class"

/-- The words of the attribute `class`. -/
def classes : List String := e.data.classes

/-- The texts below the element. -/
def textContent : String := t.textContent e.id

/-- The parent, if that is an element. -/
def parent? : Option (ElementAt t) := t.elementAt? (t.parent e.id)

/-- The children that are elements. -/
def children : List (ElementAt t) := (t.children e.id).filterMap t.elementAt?

end ElementAt

end MarkupQuery
