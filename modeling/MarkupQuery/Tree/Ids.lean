import MarkupQuery.Tree.Walk

/-!
# Attributes and ids of a tree

Attributes are written through the tree, which keeps two tables of the values of `id` up to date:
`Tree.idIndex` holds one element per value, first come first kept, and `Tree.idOwners` all elements
that took the value. The tables are touched only when a value is given. They may therefore name an
element that has since left the document or changed its id, and a reader looks again at the element.

* `Tree.setAttribute`, `Tree.removeAttribute`: tracked changes;
* `Tree.setAttributeOrKeep`, which gives a tree even if the change is refused;
* `Tree.modifyAttributes`: a change that the tables do not see;
* `Tree.indexedElement?`, `Tree.soleOwner?`: what the two tables answer.
-/

namespace MarkupQuery.Tree

/-! ## Tables of ids -/

/-- The element recorded first for an id value. -/
def indexedElement? (t : Tree) (v : String) : Option NodeId := t.idIndex[v]?

/-- The element recorded for an id value, when there is exactly one. -/
def soleOwner? (t : Tree) (v : String) : Option NodeId :=
  match t.idOwners[v]? with
  | some [n] => some n
  | _ => none

/-- The entry of the index for a value no longer leads to an element of the document with that id,
or there is none. -/
def isStale (t : Tree) (v : String) : Bool :=
  match t.idIndex[v]? with
  | some n => !(t.carriesId n v && t.isConnected n)
  | none => true

/-- The elements recorded for a value that still carry it, and after them `n`, once. -/
def ownersWith (t : Tree) (n : NodeId) (v : String) : List NodeId :=
  let kept := (t.idOwners.getD v []).filter (t.carriesId · v)
  if kept.contains n then kept else kept ++ [n]

/-- The tree in which `n` is recorded for the id value `v`. It takes over the entry of the index
when that entry is stale. -/
def recordId (t : Tree) (n : NodeId) (v : String) : Tree :=
  let stale := t.isStale v
  let owners := t.ownersWith n v
  { t with
    idIndex := if stale then t.idIndex.insert v n else t.idIndex
    idOwners := t.idOwners.insert v owners }

/-! ## Changes of attributes -/

/-- The tree with the attributes of one element changed, unseen by the tables of ids. -/
def modifyAttributes (t : Tree) (n : NodeId) (f : Attributes → Attributes) : Tree :=
  t.modify n fun node => { node with
    content := node.content.mapElement fun e => { e with attributes := f e.attributes } }

/-- Why the attributes of `n` cannot be changed. -/
def attributeFault? (t : Tree) (n : NodeId) : Option TreeError :=
  if !t.contains n then some (.invalidNode n)
  else if !t.isElement n then some (.notAnElement n)
  else none

/-- The tree with an attribute of the element `n` given a value. A value of `id` other than the
empty one is recorded. -/
def withAttribute (t : Tree) (n : NodeId) (name value : String) : Tree :=
  let t := t.modifyAttributes n fun m => (m.set name value).2
  if name = "id" && value ≠ "" then t.recordId n value else t

/-- Gives an attribute of an element a value. -/
def setAttribute (t : Tree) (n : NodeId) (name value : String) : Except TreeError Tree :=
  match t.attributeFault? n with
  | some e => .error e
  | none => .ok (t.withAttribute n name value)

/-- The tree after an attribute was to be given a value, with the refusal if that is refused. The
tree is then as it was. -/
def setAttributeOrKeep (t : Tree) (n : NodeId) (name value : String) : Option TreeError × Tree :=
  match t.attributeFault? n with
  | some e => (some e, t)
  | none => (none, t.withAttribute n name value)

theorem setAttributeOrKeep_eq (t : Tree) (n : NodeId) (name value : String) :
    t.setAttributeOrKeep n name value =
      match t.setAttribute n name value with
      | .ok t' => (none, t')
      | .error e => (some e, t) := by
  unfold setAttributeOrKeep setAttribute
  cases t.attributeFault? n <;> rfl

/-- Takes an attribute from an element and gives its value, if it was there. -/
def removeAttribute (t : Tree) (n : NodeId) (name : String) :
    Except TreeError (Option String × Tree) :=
  match t.attributeFault? n with
  | some e => .error e
  | none => .ok (t.attribute? n name, t.modifyAttributes n fun m => (m.erase name).2)

end MarkupQuery.Tree
