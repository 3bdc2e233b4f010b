import MarkupQuery.Markup.Nesting

/-!
# Outlines of markup

A document has an element `html`, which holds a `head` and a `body`. They are supplied where a text
leaves them out: what comes first and belongs to the head goes there, and all else to the body.

Markup is plain if no more than this is done on its behalf: no other element is supplied, moved or
closed, the contents of all elements are read alike, and there are no character references. Whether
a text is plain is not looked into beyond what is needed to read it.

* `Item.splitProlog`, `Item.splitHead`;
* `Item.outline`: the items of a whole document;
* `Item.read`: the document that a plain text spells.
-/

namespace MarkupQuery

namespace Item

/-- The spaces at the front of the items, and what follows them. -/
def splitSpace : List Item → List Item × List Item
  | text data :: items =>
    match data.toList.takeWhile isSpace, data.toList.dropWhile isSpace with
    | [], _ => ([], text data :: items)
    | spaces, [] => ([text (String.ofList spaces)], items)
    | spaces, cs => ([text (String.ofList spaces)], text (String.ofList cs) :: items)
  | items => ([], items)

/-- The items that stay outside the outermost element, and what follows them. Spaces are lost. -/
def splitProlog (items : List Item) : List Item × List Item :=
  let inProlog (i : Item) : Bool := i.isDoctype || i.isComment || i.isSpaceText
  ((items.takeWhile inProlog).filter (!·.isSpaceText), (splitSpace (items.dropWhile inProlog)).2)

/-- The items of a head without tags, and what follows them. A head begins with one of its elements
and goes on with comments and spaces. -/
def splitHead : List Item → List Item × List Item
  | item :: items =>
    if item.isHeadElement then
      let inHead (i : Item) : Bool := i.isHeadElement || i.isComment || i.isSpaceText
      let (spaces, rest) := splitSpace (items.dropWhile inHead)
      (item :: items.takeWhile inHead ++ spaces, rest)
    else ([], item :: items)
  | [] => ([], [])

/-- The body that the items are or make. -/
def body : List Item → Item
  | [element "body" attributes template children] => element "body" attributes template children
  | items => element "body" [] [] items

/-- Head and body that the items are or make. -/
def headAndBody : List Item → List Item
  | element "head" attributes template children :: items =>
    [element "head" attributes template children, body items]
  | items =>
    let (head, rest) := splitHead items
    [element "head" [] [] head, body rest]

/-- The items of a whole document. -/
def outline (items : List Item) : List Item :=
  let (prolog, rest) := splitProlog items
  prolog ++
    match rest with
    | [element "html" attributes template children] =>
      [element "html" attributes template (headAndBody children)]
    | rest => [element "html" [] [] (headAndBody rest)]

/-- The items of the document that a plain text spells. -/
def read (text : String) : Except String (List Item) :=
  match ofText? text with
  | none => .error "Not plain markup"
  | some items => .ok (outline items)

end Item

end MarkupQuery
