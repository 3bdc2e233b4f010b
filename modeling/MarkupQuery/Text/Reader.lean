import MarkupQuery.Text.Blank

/-!
# Reading from the front of a text

A reader takes something from the front of a list of characters and gives back the rest, or fails.
A reader *shrinks* if what it gives back is always shorter; such a reader can be repeated until it
fails.

* `Reader`, `Reader.map`, `Reader.after`;
* `Reader.Shrinks`, `Reader.many`, `Reader.many1`;
* `readName`, `readUntil`;
* **`Reader.Shrinks.many1`**: a repetition that read something has taken something.
-/

namespace MarkupQuery

/-- A way to take a value from the front of a text. -/
abbrev Reader (α : Type) := List Char → Option (α × List Char)

namespace Reader

variable {α β : Type}

/-- The reader with its value changed. -/
def map (f : α → β) (r : Reader α) : Reader β := fun cs =>
  (r cs).map fun (a, rest) => (f a, rest)

/-- The reader behind a given character. -/
def after (c : Char) (r : Reader α) : Reader α
  | [] => none
  | d :: cs => if d = c then r cs else none

/-- What the reader gives back is always shorter than what it was given. -/
def Shrinks (r : Reader α) : Prop :=
  ∀ ⦃cs rest : List Char⦄ ⦃a : α⦄, r cs = some (a, rest) → rest.length < cs.length

/-- Reads as often as the reader succeeds. -/
def many (r : Reader α) (hr : r.Shrinks) (cs : List Char) : List α × List Char :=
  match h : r cs with
  | none => ([], cs)
  | some (a, rest) =>
    have := hr h
    let (as, left) := many r hr rest
    (a :: as, left)
termination_by cs.length

/-- Reads once or more often. -/
def many1 (r : Reader α) (hr : r.Shrinks) : Reader (List α) := fun cs =>
  match r cs with
  | none => none
  | some (a, rest) =>
    let (as, left) := r.many hr rest
    some (a :: as, left)

/-! ## Shrinking -/

theorem length_many_le {r : Reader α} (hr : r.Shrinks) (cs : List Char) :
    (r.many hr cs).2.length ≤ cs.length := by
  fun_induction many r hr cs with
  | case1 => exact Nat.le_refl _
  | case2 cs a rest h hlt as left hm ih =>
    rw [hm] at ih
    exact Nat.le_trans ih (Nat.le_of_lt hlt)

theorem Shrinks.map {r : Reader α} (hr : r.Shrinks) (f : α → β) : (r.map f).Shrinks := by
  intro cs rest b h
  obtain ⟨⟨a, r'⟩, ha, he⟩ := Option.map_eq_some_iff.1 h
  obtain ⟨-, rfl⟩ := by simpa using he
  exact hr ha

theorem Shrinks.after {r : Reader α} (hr : r.Shrinks) (c : Char) : (r.after c).Shrinks := by
  intro cs rest a h
  cases cs with
  | nil => simp [Reader.after] at h
  | cons d cs =>
    simp only [Reader.after, Option.ite_none_right_eq_some] at h
    exact Nat.lt_succ_of_lt (hr h.2)

/-- **A repetition that read something has taken something.** -/
theorem Shrinks.many1 {r : Reader α} (hr : r.Shrinks) : (r.many1 hr).Shrinks := by
  intro cs rest as h
  simp only [Reader.many1] at h
  split at h
  · simp at h
  · rename_i a r' ha
    obtain ⟨-, rfl⟩ := by simpa using h
    exact Nat.lt_of_le_of_lt (length_many_le hr r') (hr ha)

end Reader

/-! ## Names and delimited texts -/

/-- Reads a name: one character of the class `start` and all of the class `more` that follow. -/
def readName (start more : Char → Bool) : Reader String
  | [] => none
  | c :: cs =>
    if start c then some (String.ofList (c :: cs.takeWhile more), cs.dropWhile more) else none

theorem readName_shrinks (start more : Char → Bool) : (readName start more).Shrinks := by
  intro cs rest s h
  cases cs with
  | nil => simp [readName] at h
  | cons c cs =>
    simp only [readName, Option.ite_none_right_eq_some, Option.some.injEq, Prod.mk.injEq] at h
    obtain ⟨-, -, rfl⟩ := h
    exact Nat.lt_succ_of_le (length_dropWhile_le _ _)

/-- Reads the text before a given character, and that character. -/
def readUntil (c : Char) : Reader String := fun cs =>
  match cs.dropWhile (· ≠ c) with
  | [] => none
  | _ :: rest => some (String.ofList (cs.takeWhile (· ≠ c)), rest)

theorem readUntil_shrinks (c : Char) : (readUntil c).Shrinks := by
  intro cs rest s h
  have hle := length_dropWhile_le (· ≠ c) cs
  simp only [readUntil] at h
  split at h
  · simp at h
  · rename_i hd
    obtain ⟨-, rfl⟩ := by simpa using h
    rw [hd] at hle
    exact hle

end MarkupQuery
