import MarkupQuery.Selector.Simple
import MarkupQuery.Text.Reader

/-!
# Recognizing simple selectors

Each kind of simple selector has a reader that takes as much as it can from the front of a text.

* character classes of names (`isIdentChar`, `isAttributeStart`, `isAttributeChar`), `readIdent`;
* `readOperator`, `readQuoted`, `readTest`, `readClasses`;
* `SimpleKind.read` on lists of characters, `SimpleKind.recognize?` on texts;
* **`SimpleKind.read_shrinks`**: a selector that is read takes at least one character.
-/

namespace MarkupQuery

/-! ## Names -/

/-- A character of ids and classes, and of tags after the first: an ASCII letter or digit, `_` or
`-`. -/
def isIdentChar (c : Char) : Bool := c.isAlphanum || c = '_' || c = '-'

/-- A first character of attribute names: an ASCII letter, `_` or `:`. -/
def isAttributeStart (c : Char) : Bool := c.isAlpha || c = '_' || c = ':'

/-- A later character of attribute names: one of identifiers, `:` or `.`. -/
def isAttributeChar (c : Char) : Bool := isIdentChar c || c = ':' || c = '.'

/-- Reads an identifier, as it stands in ids and classes. -/
def readIdent : Reader String := readName isIdentChar isIdentChar

theorem readIdent_shrinks : readIdent.Shrinks := readName_shrinks _ _

/-! ## Attribute tests -/

/-- Reads the symbol of an operator. -/
def readOperator : Reader AttributeOperator
  | '=' :: cs => some (.equals, cs)
  | c :: '=' :: cs => (AttributeOperator.ofSymbol? (String.ofList [c, '='])).map (·, cs)
  | _ => none

theorem readOperator_shrinks : readOperator.Shrinks := by
  intro cs rest op h
  unfold readOperator at h
  split at h
  · obtain ⟨-, rfl⟩ := by simpa using h
    exact Nat.lt_succ_self _
  · obtain ⟨_, -, he⟩ := Option.map_eq_some_iff.1 h
    obtain ⟨-, rfl⟩ := by simpa using he
    exact Nat.lt_succ_of_lt (Nat.lt_succ_self _)
  · simp at h

/-- Reads a quoted value with the bracket after it. A value cannot hold a quotation mark. -/
def readQuoted : Reader String
  | '"' :: cs =>
    match readUntil '"' cs with
    | some (v, ']' :: rest) => some (v, rest)
    | _ => none
  | _ => none

theorem readQuoted_shrinks : readQuoted.Shrinks := by
  intro cs rest v h
  unfold readQuoted at h
  split at h
  · split at h
    · rename_i hu
      have := readUntil_shrinks _ hu
      obtain ⟨-, rfl⟩ := by simpa using h
      simp only [List.length_cons] at this ⊢
      omega
    · simp at h
  · simp at h

/-- Reads an attribute test in brackets. -/
def readTest : Reader AttributeTest
  | '[' :: cs =>
    match readName isAttributeStart isAttributeChar cs with
    | some (name, ']' :: rest) => some (.present name, rest)
    | some (name, rest) =>
      match readOperator rest with
      | some (op, rest) => readQuoted.map (⟨name, op, ·⟩) rest
      | none => none
    | none => none
  | _ => none

theorem readTest_shrinks : readTest.Shrinks := by
  intro cs rest test h
  unfold readTest at h
  split at h
  · split at h
    · rename_i hn
      have := readName_shrinks _ _ hn
      obtain ⟨-, rfl⟩ := by simpa using h
      simp only [List.length_cons] at this ⊢
      omega
    · rename_i hn
      have h₁ := readName_shrinks _ _ hn
      split at h
      · rename_i ho
        have h₂ := readOperator_shrinks ho
        have h₃ := readQuoted_shrinks.map _ h
        simp only [List.length_cons] at h₁ ⊢
        omega
      · simp at h
    · simp at h
  · simp at h

/-! ## Classes -/

/-- Reads one or more identifiers, each behind a dot. -/
def readClasses : Reader (List String) :=
  (readIdent.after '.').many1 (readIdent_shrinks.after '.')

theorem readClasses_shrinks : readClasses.Shrinks := (readIdent_shrinks.after '.').many1

/-! ## Kinds -/

namespace SimpleKind

/-- Reads a simple selector of a kind, as long as possible. -/
def read : SimpleKind → Reader Simple
  | universal => fun
    | '*' :: rest => some (.universal, rest)
    | _ => none
  | tag => (readName (·.isAlpha) isIdentChar).map .tag
  | attr => readTest.map .attr
  | id => (readIdent.after '#').map .id
  | classes => readClasses.map .classes

/-- **A selector that is read takes at least one character.** -/
theorem read_shrinks (k : SimpleKind) : k.read.Shrinks := by
  cases k with
  | universal =>
    intro cs rest s h
    simp only [read] at h
    split at h
    · obtain ⟨-, rfl⟩ := by simpa using h
      exact Nat.lt_succ_self _
    · simp at h
  | tag => exact (readName_shrinks _ _).map _
  | attr => exact readTest_shrinks.map _
  | id => exact (readIdent_shrinks.after '#').map _
  | classes => exact readClasses_shrinks.map _

/-- The simple selector of a kind at the very front of a text, with the number of bytes it takes in
UTF-8. -/
def recognize? (k : SimpleKind) (input : String) : Option (Simple × Nat) :=
  (k.read input.toList).map fun (s, rest) =>
    (s, input.utf8ByteSize - (String.ofList rest).utf8ByteSize)

end SimpleKind

end MarkupQuery
