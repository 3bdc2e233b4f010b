import MarkupQuery.Attributes
import MarkupQuery.Text.Blank

/-!
# Nodes

A node of a markup tree has a content and five links to other nodes. Links are node ids, and the
null id stands for an absent link.

* `NodeId`: `NodeId.null` or a slot of the tree; `NodeId.root`, `NodeId.text`;
* `Element`: a tag with attributes; `Element.id?`, `Element.classes`;
* `Content`: what a node holds; `Node`: content and links.
-/

namespace MarkupQuery

/-! ## Node ids -/

/-- A reference to a node: to none, or to a slot of the tree. -/
inductive NodeId where
  | null
  | slot (index : Nat)
deriving DecidableEq, Hashable

namespace NodeId

/-- The document node. -/
def root : NodeId := slot 0

/-- The number that stands for an id: the null id shows the largest 32-bit number. -/
def number : NodeId → Nat
  | null => 4294967295
  | slot i => i

/-- The printed form of an id. -/
def text (n : NodeId) : String := "#" ++ toString n.number

/-- The id, if it is not null. -/
def toOption : NodeId → Option NodeId
  | null => none
  | slot i => some (slot i)

end NodeId

/-! ## Elements -/

/-- A tag with attributes. -/
structure Element where
  tag : String
  attributes : Attributes

namespace Element

/-- An element without attributes. -/
def ofTag (tag : String) : Element := ⟨tag, .empty⟩

/-- The value of the attribute `id`. -/
def id? (e : Element) : Option String := e.attributes.get? "id"

/-- The words of the attribute `class`. -/
def classes (e : Element) : List String := words ((e.attributes.get? "class").getD "")

end Element

/-! ## Contents -/

/-- What a node holds. -/
inductive Content where
  | document
  | doctype (name : String)
  | element (data : Element)
  | text (data : String)
  | comment (data : String)

namespace Content

/-- The number of the kind of a content, as the DOM counts them. -/
def typeNumber : Content → Nat
  | document => 9
  | doctype _ => 10
  | element _ => 1
  | text _ => 3
  | comment _ => 8

/-- The element held, if any. -/
def element? : Content → Option Element
  | element e => some e
  | _ => none

/-- The text of a text node. -/
def text? : Content → Option String
  | text s => some s
  | _ => none

/-- The content with its element changed; nothing happens to other contents. -/
def mapElement (f : Element → Element) : Content → Content
  | element e => element (f e)
  | c => c

end Content

/-! ## Nodes -/

/-- A content with links to the parent, to the first and last child and to the two neighbours. -/
structure Node where
  content : Content
  parent : NodeId := .null
  firstChild : NodeId := .null
  lastChild : NodeId := .null
  prevSibling : NodeId := .null
  nextSibling : NodeId := .null

namespace Node

/-- The node holds an element. -/
def isElement (n : Node) : Bool := n.content.element?.isSome

/-- The node holds text. -/
def isText (n : Node) : Bool := n.content.text?.isSome

end Node

end MarkupQuery
