import MarkupQuery.Document
import MarkupQuery.Markup.Outline

/-!
# Loading documents

The items of a markup text become nodes of a tree, depth first in document order. Items wait for
their turn on a stack, each with the node that it goes under. A node is put in its place before its
attributes are given, so that ids are recorded for attached elements. Options leave out texts that
are blank, or comments.

How a text is read is an argument of the loader, so that any reader of markup will do. `Item.read` is
one for plain markup.

* `LoadOptions`, `LoadOptions.keeps`; `Item.content?`, `Item.attributes`: what an item brings along;
* `Tree.addNode`, `Tree.addWaiting`;
* `Document.ofItems`; `Document.ofText`, `Document.ofMarkup` with the refusal `LoadError`.
-/

namespace MarkupQuery

/-- What a loader may be told. -/
structure LoadOptions where
  /-- Leave out texts that consist of blanks. -/
  dropBlankText : Bool := false
  /-- Keep comments. -/
  keepComments : Bool := true
deriving DecidableEq

/-- A node that holds this is not left out. -/
def LoadOptions.keeps (o : LoadOptions) : Content → Bool
  | .text data => !(o.dropBlankText && (trim data.toList).isEmpty)
  | .comment _ => o.keepComments
  | _ => true

/-! ## Items -/

namespace Item

/-- What the node of an item holds at first. There is no node for an instruction. -/
def content? : Item → Option Content
  | doctype name => some (.doctype name)
  | text data => some (.text data)
  | comment data => some (.comment data)
  | instruction => none
  | element tag .. => some (.element (.ofTag tag))

/-- The attributes that the node of an item is given. -/
def attributes : Item → List Attribute
  | element _ attributes .. => attributes
  | _ => []

end Item

/-! ## Nodes -/

namespace Tree

/-- The tree with attributes given to a node one after the other. -/
def setAttributes (t : Tree) (n : NodeId) : List Attribute → Except TreeError Tree
  | [] => .ok t
  | a :: as => do (← t.setAttribute n a.name a.value).setAttributes n as

/-- The tree with a new node at the end of the children of `parent`. -/
def appendNew (t : Tree) (parent : NodeId) (content : Content) :
    Except TreeError (NodeId × Tree) :=
  let (n, t) := t.push content
  (t.append parent n).map (n, ·)

/-- The tree with a node for an item under `parent`, and the id of the node. Nothing is done for an
item that is left out. -/
def addNode (o : LoadOptions) (t : Tree) (parent : NodeId) (i : Item) :
    Except TreeError (NodeId × Tree) :=
  match i.content?.filter o.keeps with
  | none => .ok (.null, t)
  | some content => do
    let (n, t) ← t.appendNew parent content
    .ok (n, ← t.setAttributes n i.attributes)

/-- The tree with nodes for all items that wait, each under its parent. What is in an item comes
right behind it, before the others that wait. -/
def addWaiting (o : LoadOptions) (t : Tree) : List (NodeId × Item) → Except TreeError Tree
  | [] => .ok t
  | (parent, i) :: waiting => do
    let (n, t) ← t.addNode o parent i
    t.addWaiting o (i.inner.map (n, ·) ++ waiting)
termination_by waiting => sizeOf (waiting.map fun w => w.2)
decreasing_by
  have hinner := i.sizeOf_inner_le
  have hjoined := Item.sizeOf_append i.inner (waiting.map fun w => w.2)
  have hmap : (i.inner.map (n, ·)).map (fun w => w.2) = i.inner := by
    rw [List.map_map]
    exact List.map_id _
  rw [List.map_append, hmap, List.map_cons, List.cons.sizeOf_spec]
  show _ < 1 + sizeOf i + _
  omega

end Tree

/-! ## Documents -/

/-- Why no document is made of a text. -/
inductive LoadError where
  /-- The text cannot be read. -/
  | input (cause : String)
  /-- The tree refused a node. -/
  | tree (e : TreeError)
deriving DecidableEq

/-- The wording of a refusal. -/
def LoadError.message : LoadError → String
  | input cause => "Failed to read HTML input: " ++ cause
  | tree e => "Failed to build tree: " ++ e.message

namespace Document

/-- The document of items. -/
def ofItems (o : LoadOptions) (items : List Item) : Except TreeError Document :=
  (Tree.empty.addWaiting o (items.map (.root, ·))).map ofTree

/-- The document of the items that `read` finds in a text. -/
def ofText (read : String → Except String (List Item)) (o : LoadOptions) (text : String) :
    Except LoadError Document := do
  (ofItems o (← (read text).mapError .input)).mapError .tree

/-- The document that a plain markup text spells. -/
def ofMarkup : LoadOptions → String → Except LoadError Document := ofText Item.read

end Document

end MarkupQuery
