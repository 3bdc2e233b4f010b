import Mathlib.Data.List.Induction
import Mathlib.Data.List.Nodup
import MarkupQuery.Proofs.Attributes

/-!
# Attributes as a list

The table of names only saves a search. Attributes answer every question as a plain list of names
with values answers it, whatever calls they come of.

* `AttributeList.set`, `AttributeList.erase`, `AttributeList.find?`: the operations on plain lists;
* `Attributes.Coherent.findIdx?_entries`: the table leads each name to its first entry;
* `Attributes.Coherent.entries_set`, `Attributes.Coherent.entries_erase`: what one call does;
* `Attributes.AgreesWith`, with **`Attributes.Coherent.agreesWith`**: the same answers;
* **`Attributes.agreesWith_after`**: so it is after any calls.
-/

namespace MarkupQuery

/-! ## Plain lists -/

namespace AttributeList

/-- The first entry of a name. -/
def find? (name : String) (l : List Attribute) : Option Attribute := l.find? (·.name = name)

/-- The list with a value for a name: in the place of the old one, or in a new entry at the end. -/
def set (name value : String) : List Attribute → List Attribute
  | [] => [⟨name, value⟩]
  | a :: l => if a.name = name then ⟨name, value⟩ :: l else a :: set name value l

/-- The list without the first entry of a name. -/
def erase (name : String) (l : List Attribute) : List Attribute := l.eraseP (·.name = name)

theorem set_eq (name value : String) (l : List Attribute) : set name value l =
    match l.findIdx? (·.name = name) with
    | some i => l.modify i fun a => { a with value }
    | none => l ++ [⟨name, value⟩] := by
  induction l with
  | nil => rfl
  | cons a l ih =>
    rw [set, List.findIdx?_cons]
    by_cases ha : a.name = name
    · subst ha
      simp
    · rw [if_neg ha, if_neg (by simpa using ha), ih]
      cases l.findIdx? (·.name = name) <;> rfl

end AttributeList

/-! ## Calls -/

namespace Attributes

/-- A call that changes attributes. -/
inductive Edit where
  | set (name value : String)
  | erase (name : String)

/-- The attributes after a call. -/
def Edit.apply (m : Attributes) : Edit → Attributes
  | set name value => (m.set name value).2
  | erase name => (m.erase name).2

/-- The list after a call. -/
def Edit.applyToList (l : List Attribute) : Edit → List Attribute
  | set name value => AttributeList.set name value l
  | erase name => AttributeList.erase name l

/-- The attributes that come of calls, from none. -/
def after (edits : List Edit) : Attributes := edits.foldl Edit.apply .empty

/-- The list that comes of calls, from the empty one. -/
def listAfter (edits : List Edit) : List Attribute := edits.foldl Edit.applyToList []

/-- Attributes and a list answer alike. -/
structure AgreesWith (m : Attributes) (l : List Attribute) : Prop where
  /-- The table holds the names of the list, each with its place, and nothing else. -/
  positions : ∀ (name : String) (i : ℕ),
    m.positions[name]? = some i ↔ (l.map (·.name))[i]? = some name
  nodup : (l.map (·.name)).Nodup
  entry? : ∀ i, m.entry? i = l[i]?
  get? : ∀ name, m.get? name = (AttributeList.find? name l).map (·.value)
  contains : ∀ name, m.contains name = (AttributeList.find? name l).isSome
  names : m.names = l.map (·.name)
  size : m.size = l.length
  isEmpty : m.isEmpty = l.isEmpty
  /-- A value that is given answers with the one that it replaces. -/
  set : ∀ name value, (m.set name value).1 = (AttributeList.find? name l).map (·.value)
  /-- An attribute that is taken away is the answer. -/
  erase : ∀ name, (m.erase name).1 = AttributeList.find? name l

/-! ## One call -/

namespace Coherent

variable {m : Attributes} (h : m.Coherent)

include h

/-- **The table leads each name to its first entry.** -/
theorem findIdx?_entries (name : String) :
    m.entries.toList.findIdx? (·.name = name) = m.positions[name]? := by
  have hat : ∀ i, m.nameAt? i = m.entries.toList[i]?.map (·.name) := fun i => by
    rw [nameAt?, Array.getElem?_toList]
  refine Option.ext fun i => ?_
  rw [h name i, List.findIdx?_eq_some_iff_getElem]
  constructor
  · rintro ⟨hi, hname, -⟩
    rw [hat, List.getElem?_eq_getElem hi]
    exact congrArg some (of_decide_eq_true hname)
  · intro hi
    have hi' := hi
    rw [hat, Option.map_eq_some_iff] at hi'
    obtain ⟨a, ha, hname⟩ := hi'
    obtain ⟨hlt, rfl⟩ := List.getElem?_eq_some_iff.mp ha
    refine ⟨hlt, decide_eq_true hname, fun j hj hj' => ?_⟩
    -- the name stands at one place only
    have hj'' : m.nameAt? j = some name := by
      rw [hat, List.getElem?_eq_getElem (Nat.lt_trans hj hlt)]
      exact congrArg some (of_decide_eq_true hj')
    have e : some i = some j := ((h name i).mpr hi).symm.trans ((h name j).mpr hj'')
    exact Nat.ne_of_gt hj (Option.some.inj e)

theorem find?_entries (name : String) : AttributeList.find? name m.entries.toList =
    m.positions[name]?.bind fun i => m.entries[i]? := by
  rw [AttributeList.find?, List.find?_eq_bind_findIdx?_getElem?, h.findIdx?_entries]
  simp only [Array.getElem?_toList]

theorem entries_set (name value : String) :
    (m.set name value).2.entries.toList = AttributeList.set name value m.entries.toList := by
  rw [AttributeList.set_eq, h.findIdx?_entries]
  cases hi : m.positions[name]? with
  | some i => rw [set_of_some hi, Array.toList_modify]
  | none => rw [set_of_none hi, Array.toList_push]

theorem entries_erase (name : String) :
    (m.erase name).2.entries.toList = AttributeList.erase name m.entries.toList := by
  rw [AttributeList.erase, List.eraseP_eq_eraseIdx, h.findIdx?_entries]
  cases hi : m.positions[name]? with
  | some i => rw [erase_of_some hi, Array.toList_eraseIdxIfInBounds]
  | none => rw [erase_of_none hi]

theorem entries_set_erase (name value : String) :
    ((m.erase name).2.set name value).2.entries.toList =
      AttributeList.erase name m.entries.toList ++ [⟨name, value⟩] := by
  have hgone : (m.erase name).2.positions[name]? = none := by
    cases hi : m.positions[name]? with
    | some i =>
      rw [erase_of_some hi, Std.HashMap.getElem?_map, Std.HashMap.getElem?_erase_self]
      rfl
    | none => rw [erase_of_none hi, hi]
  rw [set_of_none hgone, Array.toList_push, h.entries_erase]

theorem nodup_names : m.names.Nodup := by
  rw [List.nodup_iff_getElem?_ne_getElem?]
  intro i j hij hj he
  have hat : ∀ i, m.names[i]? = m.nameAt? i := fun i => by
    rw [names, List.getElem?_map, Array.getElem?_toList, nameAt?]
  have hname : m.nameAt? j = some m.names[j] := by rw [← hat, List.getElem?_eq_getElem hj]
  rw [hat, hat, hname, ← h, (h _ _).mpr hname] at he
  exact Nat.ne_of_gt hij (Option.some.inj he)

/-- **Coherent attributes answer as the list of their entries.** -/
theorem agreesWith : m.AgreesWith m.entries.toList where
  positions name i := by
    rw [List.getElem?_map, Array.getElem?_toList]
    exact h name i
  nodup := h.nodup_names
  entry? i := Array.getElem?_toList.symm
  get? name := by
    rw [h.find?_entries, Option.map_bind]
    rfl
  contains name := by
    rw [h.find?_entries, contains, Std.HashMap.contains_eq_isSome_getElem?]
    cases hi : m.positions[name]? with
    | some i =>
      rw [Option.bind_some, Array.getElem?_eq_getElem (h.lt_size hi)]
      rfl
    | none => rfl
  names := rfl
  size := Array.length_toList.symm
  isEmpty := Array.isEmpty_toList.symm
  set name value := by
    rw [h.find?_entries, Attributes.set]
    cases m.positions[name]? <;> rfl
  erase name := by
    rw [h.find?_entries, Attributes.erase]
    cases m.positions[name]? <;> rfl

end Coherent

/-! ## Any calls -/

theorem after_concat (edits : List Edit) (edit : Edit) :
    after (edits ++ [edit]) = edit.apply (after edits) := by
  rw [after, List.foldl_concat, after]

theorem coherent_entries_after (edits : List Edit) :
    (after edits).Coherent ∧ (after edits).entries.toList = listAfter edits := by
  induction edits using List.reverseRecOn with
  | nil => exact ⟨coherent_empty, rfl⟩
  | append_singleton edits edit ih =>
    obtain ⟨h, hl⟩ := ih
    rw [after_concat, listAfter, List.foldl_concat, ← listAfter, ← hl]
    cases edit with
    | set name value => exact ⟨h.set name value, h.entries_set name value⟩
    | erase name => exact ⟨h.erase name, h.entries_erase name⟩

/-- **Attributes are a list of names with values**, each name at most once, whatever the
edits. -/
theorem agreesWith_after (edits : List Edit) :
    (after edits).AgreesWith (listAfter edits) ∧ ∀ name value,
      listAfter (edits ++ [.erase name, .set name value]) =
        AttributeList.erase name (listAfter edits) ++ [⟨name, value⟩] := by
  obtain ⟨h, hl⟩ := coherent_entries_after edits
  refine ⟨hl ▸ h.agreesWith, fun name value => ?_⟩
  rw [← (coherent_entries_after _).2, List.append_cons, after_concat, after_concat, ← hl]
  exact h.entries_set_erase name value

end Attributes

end MarkupQuery
