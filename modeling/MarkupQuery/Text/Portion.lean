import MarkupQuery.Text.Blank

/-!
# Portions of a text

A text is read in portions. Its bytes lie in blocks of `blockSize`, and the characters of a block
are a portion. A character that crosses from one block into the next stands in a portion of its own,
with those characters behind it that fit into four bytes. A byte order mark at the front of a
portion is no part of the text.

* `portions`, from `portionsFrom`;
* `dropMark`.
-/

namespace MarkupQuery

/-- The size of a block in bytes. -/
def blockSize : Nat := 4096

/-- The bytes that a portion has room for whose first character is `c`, at the given place of a
block. -/
def portionSize (place : Nat) (c : Char) : Nat :=
  if place + c.utf8Size ≤ blockSize then blockSize - place else 4

/-- The portions of a text. The arguments are the place in the block, the room that is left in the
current portion, and what the portion holds already in reverse. -/
def portionsFrom (place room : Nat) (current : List Char) : List Char → List (List Char)
  | [] => [current.reverse]
  | c :: cs =>
    let next := (place + c.utf8Size) % blockSize
    if c.utf8Size ≤ room then portionsFrom next (room - c.utf8Size) (c :: current) cs
    else current.reverse :: portionsFrom next (portionSize place c - c.utf8Size) [c] cs

/-- The portions of a text. -/
def portions (cs : List Char) : List (List Char) := portionsFrom 0 blockSize [] cs

/-! ## Byte order marks -/

/-- The text without a byte order mark at its front. -/
def dropMark : List Char → List Char
  | '\ufeff' :: cs => cs
  | cs => cs

theorem length_dropMark_le (cs : List Char) : (dropMark cs).length ≤ cs.length := by
  unfold dropMark
  split
  · exact Nat.le_succ _
  · exact Nat.le_refl _

end MarkupQuery
