import MarkupQuery.Tree.Edit
import MarkupQuery.Tree.Ids
import MarkupQuery.Tree.ElementAt

/-!
# Documents

A document is a tree together with the places of its `html`, `head` and `body` elements. The places
are found once, when the tree is wrapped, and again on demand; changes of the tree do not move them.

* `Document`, `Document.ofTree`, `Document.finalize`;
* `Document.html?`, `Document.head?`, `Document.body?`, `Document.title`;
* `Document.elementById?`: the index is asked first, the whole tree after it.
-/

namespace MarkupQuery

/-- A tree with the places of its outer elements. -/
structure Document where
  tree : Tree
  html : NodeId := .null
  head : NodeId := .null
  body : NodeId := .null

/-- The first child of a node that is an element of the given tag, or null. -/
def Tree.childWithTag (t : Tree) (n : NodeId) (tag : String) : NodeId :=
  ((t.children n).find? fun c => t.tag? c = some tag).getD .null

/-- The first node of the document, in document order, with the id value `v`. -/
def Tree.firstWithId? (t : Tree) (v : String) : Option NodeId :=
  (t.preorder .root).find? (t.carriesId · v)

namespace Document

/-- The document with its outer elements looked up anew. -/
def finalize (d : Document) : Document :=
  let html := d.tree.childWithTag .root "html"
  { d with html, head := d.tree.childWithTag html "head", body := d.tree.childWithTag html "body" }

/-- The document of a tree. -/
def ofTree (t : Tree) : Document := finalize { tree := t }

/-- The document of the empty tree. -/
def empty : Document := ofTree .empty

/-- The element `html`. -/
def html? (d : Document) : Option (ElementAt d.tree) := d.tree.elementAt? d.html

/-- The element `head`. -/
def head? (d : Document) : Option (ElementAt d.tree) := d.tree.elementAt? d.head

/-- The element `body`. -/
def body? (d : Document) : Option (ElementAt d.tree) := d.tree.elementAt? d.body

/-- The text of the first `title` in the head, empty if there is none. -/
def title (d : Document) : String := d.tree.textContent (d.tree.childWithTag d.head "title")

/-- The element with an id value: the indexed one if it is attached and has that id still, else the
first one of the document. -/
def elementById? (d : Document) (v : String) : Option NodeId :=
  match d.tree.indexedElement? v with
  | some n =>
    if d.tree.carriesId n v && d.tree.isConnected n then some n else d.tree.firstWithId? v
  | none => d.tree.firstWithId? v

end Document

end MarkupQuery
