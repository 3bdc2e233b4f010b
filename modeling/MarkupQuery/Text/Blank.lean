/-!
# White space

Two classes of white space. A *blank* is a character with the Unicode property `White_Space`: the
text of a selector is trimmed and split at blanks. A *space* is one of the five ASCII characters
that part the words of an attribute value.

* `isBlank` (from the table `blankRanges`), `trim`;
* `isSpace`, `runs`, `words`.
-/

namespace MarkupQuery

/-! ## Blanks -/

/-- The code points with the property `White_Space`, as closed ranges. -/
def blankRanges : List (Nat × Nat) :=
  [(0x09, 0x0D), (0x20, 0x20), (0x85, 0x85), (0xA0, 0xA0), (0x1680, 0x1680), (0x2000, 0x200A),
    (0x2028, 0x2029), (0x202F, 0x202F), (0x205F, 0x205F), (0x3000, 0x3000)]

/-- A character with the property `White_Space`. -/
def isBlank (c : Char) : Bool :=
  blankRanges.any fun (lo, hi) => lo ≤ c.toNat && c.toNat ≤ hi

/-- A text without the blanks at its two ends. -/
def trim (cs : List Char) : List Char :=
  ((cs.dropWhile isBlank).reverse.dropWhile isBlank).reverse

/-! ## Spaces and words -/

/-- Space, tab, line feed, form feed or carriage return. -/
def isSpace (c : Char) : Bool :=
  c = ' ' || c = '\t' || c = '\n' || c = '\x0c' || c = '\r'

theorem isSpace_iff {c : Char} :
    isSpace c = true ↔ c = ' ' ∨ c = '\t' ∨ c = '\n' ∨ c = '\x0c' ∨ c = '\r' := by
  simp only [isSpace, Bool.or_eq_true, decide_eq_true_eq, or_assoc]

theorem length_dropWhile_le (p : Char → Bool) (cs : List Char) :
    (cs.dropWhile p).length ≤ cs.length :=
  (List.dropWhile_sublist p).length_le

/-- The maximal runs of characters on which `part` fails, from left to right. -/
def runs (part : Char → Bool) : List Char → List (List Char)
  | [] => []
  | c :: cs =>
    if part c then runs part cs
    else (c :: cs.takeWhile (! part ·)) :: runs part (cs.dropWhile (! part ·))
termination_by cs => cs.length
decreasing_by
  · exact Nat.lt_succ_self _
  · exact Nat.lt_succ_of_le (length_dropWhile_le _ _)

/-- The words of a value: its maximal runs of characters that are no spaces. -/
def words (s : String) : List String :=
  (runs isSpace s.toList).map String.ofList

end MarkupQuery
