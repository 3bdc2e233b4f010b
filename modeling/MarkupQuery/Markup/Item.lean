import MarkupQuery.Markup.Vocabulary

/-!
# Items of markup

The tree that a markup text spells: doctypes, texts, comments, instructions, and elements with their
contents.

* `Item`, `Item.inner`;
* `Item.ofTag`, `Item.isWhole`: an element as its vocabulary spells it, and whether a start tag is
  all of it;
* `Item.isDoctype`, `Item.isComment`, `Item.isSpaceText`, `Item.isHeadElement`.
-/

namespace MarkupQuery

/-- A piece of markup with all that it contains. -/
inductive Item where
  | doctype (name : String)
  | text (data : String)
  | comment (data : String)
  | instruction
  /-- The items of a template are held apart from those of other elements. -/
  | element (tag : String) (attributes : List Attribute) (template children : List Item)

namespace Item

/-! ## Forests -/

/-- The items in an item, those of a template first. -/
def inner : Item → List Item
  | element _ _ template children => template ++ children
  | _ => []

theorem sizeOf_append (items items' : List Item) :
    sizeOf (items ++ items') + 1 = sizeOf items + sizeOf items' := by
  induction items with
  | nil =>
    rw [List.nil_append, List.nil.sizeOf_spec]
    omega
  | cons i items ih =>
    rw [List.cons_append, List.cons.sizeOf_spec, List.cons.sizeOf_spec]
    omega

theorem sizeOf_inner_le (i : Item) : sizeOf i.inner ≤ sizeOf i := by
  cases i with
  | element tag attributes template children =>
    have h := sizeOf_append template children
    rw [inner, element.sizeOf_spec]
    omega
  | doctype name => exact Nat.le_add_right 1 _
  | text data => exact Nat.le_add_right 1 _
  | comment data => exact Nat.le_add_right 1 _
  | instruction => exact Nat.le_refl 1

/-! ## Elements -/

/-- The tags of elements that have neither contents nor an end tag. -/
def voidTags : List String :=
  ["area", "base", "br", "col", "embed", "hr", "image", "img", "input", "link", "meta", "source",
    "track", "wbr"]

/-- A start tag is a whole element. In the document the tag decides, elsewhere a slash at the end of
the start tag. -/
def isWhole (v : Vocabulary) (tag : String) (closed : Bool) : Bool :=
  if v = .html then voidTags.contains tag else closed

/-- The tags of elements whose contents may begin on a line of their own. -/
def linedTags : List String := ["listing", "pre", "textarea"]

/-- The items without a line feed at their front. -/
def dropLineFeed : List Item → List Item
  | text data :: items =>
    match data.toList with
    | ['\n'] => items
    | '\n' :: cs => text (String.ofList cs) :: items
    | _ => text data :: items
  | items => items

/-- An element with its names as its vocabulary spells them, and without the line feed that some
contents begin with. -/
def ofTag (v : Vocabulary) (tag : String) (attributes : List Attribute) (items : List Item) :
    Item :=
  if v = .html && tag = "template" then element (v.tag tag) (v.attributes attributes) items []
  else element (v.tag tag) (v.attributes attributes) []
    (if v = .html && linedTags.contains tag then dropLineFeed items else items)

/-! ## Kinds -/

/-- The item is a doctype. -/
def isDoctype : Item → Bool
  | doctype _ => true
  | _ => false

/-- The item is a comment. -/
def isComment : Item → Bool
  | comment _ => true
  | _ => false

/-- The item is a text of spaces. -/
def isSpaceText : Item → Bool
  | text data => data.toList.all isSpace
  | _ => false

/-- The tags of elements that belong to the head when they come before all others. -/
def headTags : List String :=
  ["base", "basefont", "bgsound", "link", "meta", "noframes", "noscript", "script", "style",
    "template", "title"]

/-- The item is an element that belongs to the head when it comes before all others. -/
def isHeadElement : Item → Bool
  | element tag .. => headTags.contains tag
  | _ => false

end Item

end MarkupQuery
