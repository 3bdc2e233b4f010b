import MarkupQuery.Markup.Item
import MarkupQuery.Text.Portion

/-!
# Nesting of markup

Tokens become items one by one. What has been read so far is kept as the elements that are still
open, each with the items before it. Tags must be properly nested, each start tag with an end tag,
and names are spelled as in the vocabulary of their place.

A text is read in portions. A token that a portion cuts off waits for the next one, and texts that
meet are one text. Behind the end of a script reading starts afresh, so that a byte order mark there
is no part of the text either.

* `Nesting`, `Nesting.close?`, `Nesting.add?`, `Nesting.items?`;
* `Nesting.read?`, `Nesting.readPortions?`;
* `Item.ofText?`: the items that a text spells.
-/

namespace MarkupQuery

/-- An element whose end tag is still to come. -/
structure OpenElement where
  /-- The tag as read, in lower case. -/
  tag : String
  vocabulary : Vocabulary
  attributes : List Attribute
  /-- The items before the element, in reverse. -/
  before : List Item

/-- What has been read of a text. -/
structure Nesting where
  /-- The open elements, the innermost first. -/
  opens : List OpenElement
  /-- The items since the last start tag, in reverse. -/
  items : List Item

namespace Nesting

/-- Nothing has been read. -/
def empty : Nesting := ⟨[], []⟩

/-! ## Tokens -/

/-- The vocabulary of an element with the given tag in this place. -/
def vocabularyOf (s : Nesting) (tag : String) : Vocabulary :=
  match s.opens with
  | [] => Vocabulary.html.ofTag tag
  | o :: _ => (o.vocabulary.around o.tag o.attributes tag).ofTag tag

/-- An item is added. -/
def put (s : Nesting) (i : Item) : Nesting := { s with items := i :: s.items }

/-- A text is added. -/
def putText (s : Nesting) (data : String) : Nesting :=
  match s.items with
  | .text front :: items => { s with items := .text (front ++ data) :: items }
  | _ => s.put (.text data)

/-- The innermost element is closed, if it has the given tag. -/
def close? (s : Nesting) (tag : String) : Option Nesting :=
  match s.opens with
  | [] => none
  | o :: opens =>
    if o.tag = tag then
      some ⟨opens, .ofTag o.vocabulary tag o.attributes s.items.reverse :: o.before⟩
    else none

/-- A token is added, unless it is an end tag that fits no start tag. The end tag of an element that
is whole without one is passed over. -/
def add? (s : Nesting) : Token → Option Nesting
  | .doctype name => some (s.put (.doctype name))
  | .comment data => some (s.put (.comment data))
  | .text data => some (s.putText data)
  | .startTag tag attributes closed =>
    let v := s.vocabularyOf tag
    if Item.isWhole v tag closed then some (s.put (.ofTag v tag attributes []))
    else some ⟨⟨tag, v, attributes, s.items⟩ :: s.opens, []⟩
  | .endTag tag => if Item.isWhole (s.vocabularyOf tag) tag false then some s else s.close? tag

/-- All items, if no element is open. -/
def items? (s : Nesting) : Option (List Item) :=
  match s.opens with
  | [] => some s.items.reverse
  | _ :: _ => none

/-! ## Texts -/

/-- The token ends a script of the document. -/
def endsScript (s : Nesting) : Token → Bool
  | .endTag tag => tag = "script" && s.opens.head?.any (·.vocabulary = .html)
  | _ => false

/-- Reads the tokens of a text. What cannot be read is left over. -/
def read? (s : Nesting) (cs : List Char) : Option (Nesting × List Char) :=
  match h : Token.read cs with
  | none => some (s, cs)
  | some (t, rest) =>
    have := Token.read_shrinks h
    have := length_dropMark_le rest
    match s.add? t with
    | none => none
    | some s' => s'.read? (if s.endsScript t then dropMark rest else rest)
termination_by cs.length
decreasing_by split <;> omega

theorem read?_of_none {s : Nesting} {cs : List Char} (h : Token.read cs = none) :
    s.read? cs = some (s, cs) := by
  rw [read?]
  split
  · rfl
  · rename_i heq
    rw [h] at heq
    cases heq

theorem read?_of_some {s s' : Nesting} {cs rest : List Char} {t : Token}
    (h : Token.read cs = some (t, rest)) (hs : s.add? t = some s') :
    s.read? cs = s'.read? (if s.endsScript t then dropMark rest else rest) := by
  rw [read?]
  split
  · rename_i heq
    rw [h] at heq
    cases heq
  · rename_i heq
    obtain ⟨rfl, rfl⟩ := Prod.mk.inj (Option.some.inj (h.symm.trans heq))
    simp only [hs]

/-- Reads the portions of a text. The last argument is what the portions before have left over. -/
def readPortions? (s : Nesting) : List (List Char) → List Char → Option Nesting
  | [], [] => some s
  | [], _ :: _ => none
  | p :: ps, left =>
    match s.read? (left ++ dropMark p) with
    | none => none
    | some (s, left) => s.readPortions? ps left

end Nesting

/-- The items that a text spells. -/
def Item.ofText? (text : String) : Option (List Item) :=
  (Nesting.empty.readPortions? (portions text.toList) []).bind Nesting.items?

end MarkupQuery
