import MarkupQuery.Selector.Basic
import MarkupQuery.Selector.Recognize

/-!
# Reading selectors

A selector is a compound followed by links, each a separator and one more compound. The links are
read first, and commas then part the chain into alternatives. A text that is not used up is no
selector.

* `readCompound`; `Separator`, `readSeparator`, `readLink`;
* `Selector.ofLinks`: commas part, combinators join;
* `Selector.read?` on a trimmed text, `Selector.parse` with the refusal `SelectorError`.
-/

namespace MarkupQuery

/-! ## Compounds -/

/-- Reads a simple selector of the first kind in a list that succeeds. -/
def readFirstOf (kinds : List SimpleKind) : Reader Simple := fun cs =>
  kinds.findSome? fun k => k.read cs

theorem readFirstOf_shrinks (kinds : List SimpleKind) : (readFirstOf kinds).Shrinks := by
  intro cs rest s h
  obtain ⟨k, -, hk⟩ := List.exists_of_findSome?_eq_some h
  exact k.read_shrinks hk

/-- Reads a simple selector that is not the first of its compound. -/
def readPart : Reader Simple := readFirstOf (SimpleKind.all.filter (! ·.leadsCompound))

theorem readPart_shrinks : readPart.Shrinks := readFirstOf_shrinks _

/-- Reads a compound: a simple selector of any kind, then those that may follow one. -/
def readCompound : Reader Compound := fun cs =>
  match readFirstOf SimpleKind.all cs with
  | none => none
  | some (part, rest) =>
    let (parts, left) := readPart.many readPart_shrinks rest
    some (⟨part :: parts⟩, left)

theorem readCompound_shrinks : readCompound.Shrinks := by
  intro cs rest c h
  simp only [readCompound] at h
  split at h
  · simp at h
  · rename_i part r hr
    obtain ⟨-, rfl⟩ := by simpa using h
    exact Nat.lt_of_le_of_lt (Reader.length_many_le _ r) (readFirstOf_shrinks _ hr)

/-! ## Separators -/

/-- What may stand between two compounds. -/
inductive Separator where
  | comma
  | combinator (k : Combinator)
deriving DecidableEq

/-- The separator of a symbol. -/
def Separator.ofSymbol? (c : Char) : Option Separator :=
  if c = ',' then some comma else (Combinator.ofSymbol? c).map combinator

/-- Reads a separator: a symbol with any blanks around it, or blanks alone. -/
def readSeparator : Reader Separator := fun cs =>
  match cs.dropWhile isBlank with
  | [] => none
  | c :: rest =>
    match Separator.ofSymbol? c with
    | some sep => some (sep, rest.dropWhile isBlank)
    | none =>
      if (cs.takeWhile isBlank).isEmpty then none else some (.combinator .descendant, c :: rest)

theorem readSeparator_shrinks : readSeparator.Shrinks := by
  intro cs rest sep h
  have hl := congrArg List.length (List.takeWhile_append_dropWhile (p := isBlank) (l := cs))
  rw [List.length_append] at hl
  simp only [readSeparator] at h
  split at h
  · simp at h
  · rename_i c tail hb
    rw [hb, List.length_cons] at hl
    have ht := length_dropWhile_le isBlank tail
    split at h
    · obtain ⟨-, rfl⟩ := by simpa using h
      omega
    · split at h
      · simp at h
      · rename_i hne
        obtain ⟨-, rfl⟩ := by simpa using h
        have : 0 < (cs.takeWhile isBlank).length :=
          List.length_pos_iff.2 fun e => hne (by rw [e]; rfl)
        rw [List.length_cons]
        omega

/-- Reads a separator and the compound behind it. -/
def readLink : Reader (Separator × Compound) := fun cs =>
  match readSeparator cs with
  | none => none
  | some (sep, rest) => readCompound.map (sep, ·) rest

theorem readLink_shrinks : readLink.Shrinks := by
  intro cs rest link h
  simp only [readLink] at h
  split at h
  · simp at h
  · rename_i hs
    exact Nat.lt_trans (readCompound_shrinks.map _ h) (readSeparator_shrinks hs)

/-! ## Selectors -/

namespace Selector

/-- The selector of a compound and its links: a comma begins a new alternative, a combinator
continues the one at hand. -/
def ofLinks (c : Compound) : List (Separator × Compound) → Selector
  | [] => ⟨⟨c, []⟩, []⟩
  | (.comma, d) :: links => ⟨⟨c, []⟩, (ofLinks d links).alternatives⟩
  | (.combinator k, d) :: links =>
    let s := ofLinks d links
    ⟨.cons c k s.head, s.tail⟩

/-- The selector that a text without outer blanks spells. -/
def read? (cs : List Char) : Option Selector :=
  match readCompound cs with
  | none => none
  | some (c, rest) =>
    match readLink.many readLink_shrinks rest with
    | (links, []) => some (ofLinks c links)
    | (_, _ :: _) => none

end Selector

/-- Why a text is refused as a selector. -/
inductive SelectorError where
  /-- The text, as given, does not follow the grammar. -/
  | unsupported (text : String)
deriving DecidableEq

/-- The wording of a refusal. -/
def SelectorError.message : SelectorError → String
  | unsupported text => "Unsupported selector: " ++ text

/-- The selector that a text spells between its outer blanks. -/
def Selector.parse (text : String) : Except SelectorError Selector :=
  match Selector.read? (trim text.toList) with
  | some s => .ok s
  | none => .error (.unsupported text)

end MarkupQuery
