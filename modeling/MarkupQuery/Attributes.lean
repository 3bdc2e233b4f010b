import Std.Data.HashMap

/-!
# Attributes

The attributes of an element: names with values, in the order in which the names first came. A table
from names to positions stands beside the entries, so that a look-up does not scan them.

* `Attributes.set` writes in place or at the end, `Attributes.erase` closes the gap;
* `Attributes.get?`, `Attributes.contains`, `Attributes.entry?`, `Attributes.names`.
-/

namespace MarkupQuery

/-- A name with its value. -/
structure Attribute where
  name : String
  value : String
deriving DecidableEq

/-- The attributes of an element, in order of first appearance. -/
structure Attributes where
  /-- The attributes, in order. -/
  entries : Array Attribute
  /-- The place of each name in `entries`. -/
  positions : Std.HashMap String Nat

namespace Attributes

/-- No attributes. -/
def empty : Attributes := ⟨#[], ∅⟩

/-- The number of attributes. -/
def size (m : Attributes) : Nat := m.entries.size

/-- There are no attributes. -/
def isEmpty (m : Attributes) : Bool := m.entries.isEmpty

/-- The attribute at a position. -/
def entry? (m : Attributes) (i : Nat) : Option Attribute := m.entries[i]?

/-- The value under a name. -/
def get? (m : Attributes) (name : String) : Option String :=
  m.positions[name]?.bind fun i => m.entries[i]?.map (·.value)

/-- There is an attribute of that name. -/
def contains (m : Attributes) (name : String) : Bool := m.positions.contains name

/-- The names, in order. -/
def names (m : Attributes) : List String := m.entries.toList.map (·.name)

/-- Gives `name` the value `value`: in place when the name is there, else at the end. The first
component is the value that was replaced. -/
def set (m : Attributes) (name value : String) : Option String × Attributes :=
  match m.positions[name]? with
  | some i =>
    (m.entries[i]?.map (·.value),
      { m with entries := m.entries.modify i fun a => { a with value } })
  | none =>
    (none, ⟨m.entries.push ⟨name, value⟩, m.positions.insert name m.entries.size⟩)

/-- Takes out the attribute `name`; those after it move up by one. The first component is the
attribute taken out. -/
def erase (m : Attributes) (name : String) : Option Attribute × Attributes :=
  match m.positions[name]? with
  | some i =>
    (m.entries[i]?, ⟨m.entries.eraseIdxIfInBounds i,
      (m.positions.erase name).map fun _ j => if i < j then j - 1 else j⟩)
  | none => (none, m)

end Attributes

end MarkupQuery
