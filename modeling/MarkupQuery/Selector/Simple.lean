import MarkupQuery.Selector.AttributeTest
import MarkupQuery.Tree.Basic

/-!
# Simple selectors

The smallest conditions on one element: any element, a tag, an attribute test, an id, or a run of
classes. A *compound* is a list of them that one element has to meet at once.

* `Simple` with its `SimpleKind`;
* `Simple.holdsAt`, `Simple.text`;
* `Compound` with `Compound.tag?`, `Compound.id?`, `Compound.holdsAt`, `Compound.text`.

An element without attributes meets no attribute test, id or class. On an element that has some, a
missing attribute reads as the empty value in an attribute test, but meets no id and no class.
-/

namespace MarkupQuery

/-! ## Kinds -/

/-- The kinds of simple selectors. -/
inductive SimpleKind where
  | universal
  | tag
  | attr
  | id
  | classes
deriving DecidableEq

namespace SimpleKind

/-- All kinds, in the order in which they are tried on a text. -/
def all : List SimpleKind := [universal, tag, attr, id, classes]

/-- The kind stands at the front of a compound and nowhere else. -/
def leadsCompound : SimpleKind → Bool
  | universal | tag => true
  | _ => false

/-- The regular expression of the texts of a kind. -/
def pattern : SimpleKind → String
  | universal => "\\*"
  | tag => "[A-Za-z][A-Za-z0-9_-]*"
  | attr => "\\[([A-Za-z_:][A-Za-z0-9_:.-]*)(?:([~|^$*]?=)\"([^\"]*)\")?\\]"
  | id => "#([A-Za-z0-9_-]+)"
  | classes => "(?:\\.[A-Za-z0-9_-]+)+"

end SimpleKind

/-! ## Simple selectors -/

/-- A condition on one element. -/
inductive Simple where
  /-- Any element. -/
  | universal
  /-- An element of the tag. -/
  | tag (name : String)
  /-- An attribute passes the test. -/
  | attr (test : AttributeTest)
  /-- The attribute `id` has the value. -/
  | id (value : String)
  /-- The attribute `class` holds every one of the words. -/
  | classes (names : List String)
deriving DecidableEq

namespace Simple

/-- The kind of a simple selector. -/
def kind : Simple → SimpleKind
  | universal => .universal
  | tag _ => .tag
  | attr _ => .attr
  | id _ => .id
  | classes _ => .classes

/-- The node meets the condition. The node is meant to be an element; on any other node only the
universal selector holds. -/
def holdsAt (t : Tree) (n : NodeId) : Simple → Bool
  | universal => true
  | tag name => t.tag? n = some name
  | attr test => 0 < t.attributeCount n && test.accepts ((t.attribute? n test.name).getD "")
  | id value => 0 < t.attributeCount n && t.carriesId n value
  | classes names => 0 < t.attributeCount n &&
      match t.attribute? n "class" with
      | some v => names.all (words v).contains
      | none => false

/-- The written form of a simple selector. -/
def text : Simple → String
  | universal => "*"
  | tag name => name
  | attr test => test.text
  | id value => "#" ++ value
  | classes names => String.join (names.map ("." ++ ·))

end Simple

/-! ## Compounds -/

/-- Conditions that one element has to meet at once. -/
structure Compound where
  parts : List Simple
deriving DecidableEq

namespace Compound

/-- The first tag asked for. -/
def tag? (c : Compound) : Option String :=
  c.parts.findSome? fun
    | .tag name => some name
    | _ => none

/-- The first id asked for. -/
def id? (c : Compound) : Option String :=
  c.parts.findSome? fun
    | .id value => some value
    | _ => none

/-- The node is an element that meets all conditions. -/
def holdsAt (t : Tree) (n : NodeId) (c : Compound) : Bool :=
  t.isElement n && c.parts.all (·.holdsAt t n)

/-- The written form of a compound: its parts side by side. -/
def text (c : Compound) : String := String.join (c.parts.map (·.text))

end Compound

end MarkupQuery
