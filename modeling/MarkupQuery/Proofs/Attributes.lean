import Mathlib.Data.List.Basic
import MarkupQuery.Attributes

/-!
# Attributes as a map

The table of names agrees with the entries at every time. A value that is given or taken away is
therefore seen under its own name and under no other.

* `Attributes.Coherent`: each name stands where the table says, and nowhere else, with
  `Attributes.Coherent.exists_get?`;
* **`Attributes.Coherent.set`**, **`Attributes.Coherent.erase`**: the table is kept up to date;
* `Attributes.Coherent.get?_set`, `Attributes.Coherent.get?_erase`: what is found afterwards.
-/

namespace MarkupQuery.Attributes

variable {m : Attributes} {i : ℕ}

/-! ## The table of names -/

/-- The name at a position. -/
def nameAt? (m : Attributes) (i : ℕ) : Option String := m.entries[i]?.map (·.name)

/-- Each name stands where the table says, and nowhere else. -/
def Coherent (m : Attributes) : Prop :=
  ∀ name i, m.positions[name]? = some i ↔ m.nameAt? i = some name

theorem coherent_empty : empty.Coherent := by
  intro name i
  simp [empty, nameAt?]

theorem Coherent.lt_size (h : m.Coherent) {name : String} (hi : m.positions[name]? = some i) :
    i < m.entries.size := by
  by_contra hn
  have := (h name i).mp hi
  rw [nameAt?, Array.getElem?_eq_none (Nat.le_of_not_lt hn)] at this
  cases this

theorem Coherent.name_inj (h : m.Coherent) {a b : String} (ha : m.positions[a]? = some i)
    (hb : m.positions[b]? = some i) : a = b :=
  Option.some.inj (((h a i).mp ha).symm.trans ((h b i).mp hb))

theorem Coherent.exists_get? (h : m.Coherent) (hm : 0 < m.size) :
    ∃ name, m.get? name ≠ none := by
  have hfirst : m.entries[0]? = some m.entries[0] := Array.getElem?_eq_getElem hm
  have hpos : m.positions[m.entries[0].name]? = some 0 := (h _ 0).mpr (by rw [nameAt?, hfirst]; rfl)
  refine ⟨m.entries[0].name, ?_⟩
  rw [get?, hpos, Option.bind_some, hfirst]
  exact Option.some_ne_none _

/-! ## Giving a value -/

theorem set_of_some {name : String} (hi : m.positions[name]? = some i) (value : String) :
    (m.set name value).2 =
      { m with entries := m.entries.modify i fun a => { a with value } } := by
  rw [set, hi]

theorem set_of_none {name : String} (hi : m.positions[name]? = none) (value : String) :
    (m.set name value).2 =
      ⟨m.entries.push ⟨name, value⟩, m.positions.insert name m.entries.size⟩ := by
  rw [set, hi]

/-- **Giving a value keeps the table up to date.** -/
theorem Coherent.set (h : m.Coherent) (name value : String) : (m.set name value).2.Coherent := by
  intro k j
  cases hi : m.positions[name]? with
  | some i =>
    rw [set_of_some hi, nameAt?, Array.getElem?_modify]
    refine (h k j).trans (Eq.congr_left ?_)
    split_ifs
    · rw [nameAt?, Option.map_map]
      rfl
    · rfl
  | none =>
    have hend : m.nameAt? m.entries.size = none := by simp [nameAt?]
    rw [set_of_none hi, nameAt?, Std.HashMap.getElem?_insert, Array.getElem?_push]
    by_cases hk : name = k
    · subst hk
      rw [if_pos (beq_self_eq_true _)]
      split_ifs with hj
      · simp [hj]
      · refine iff_of_false (fun e => hj (Option.some.inj e).symm) fun e => ?_
        have := (h name j).mpr e
        rw [hi] at this
        cases this
    · rw [if_neg (by simpa using hk), h k j]
      split_ifs with hj
      · rw [hj, hend]
        simpa using hk
      · rfl

theorem Coherent.get?_set (h : m.Coherent) (name value k : String) :
    (m.set name value).2.get? k = if k = name then some value else m.get? k := by
  cases hi : m.positions[name]? with
  | some i =>
    have hlt := h.lt_size hi
    rw [set_of_some hi, get?]
    split_ifs with hk
    · rw [hk, hi, Option.bind_some, Array.getElem?_modify, if_pos rfl,
        Array.getElem?_eq_getElem hlt]
      rfl
    · rw [get?]
      cases hj : m.positions[k]? with
      | none => rfl
      | some j =>
        have hij : i ≠ j := fun e => hk (h.name_inj hj (e ▸ hi))
        rw [Option.bind_some, Option.bind_some, Array.getElem?_modify, if_neg hij]
  | none =>
    rw [set_of_none hi, get?, Std.HashMap.getElem?_insert]
    split_ifs with hnk hk hk
    · rw [Option.bind_some, Array.getElem?_push_size]
      rfl
    · exact absurd (beq_iff_eq.mp hnk).symm hk
    · exact absurd (beq_iff_eq.mpr hk.symm) hnk
    · rw [get?]
      cases hj : m.positions[k]? with
      | none => rfl
      | some j =>
        rw [Option.bind_some, Option.bind_some, Array.getElem?_push_lt (h.lt_size hj),
          Array.getElem?_eq_getElem (h.lt_size hj)]

/-! ## Taking a value away -/

theorem erase_of_some {name : String} (hi : m.positions[name]? = some i) : (m.erase name).2 =
    ⟨m.entries.eraseIdxIfInBounds i,
      (m.positions.erase name).map fun _ j => if i < j then j - 1 else j⟩ := by
  rw [erase, hi]

theorem erase_of_none {name : String} (hi : m.positions[name]? = none) :
    (m.erase name).2 = m := by
  rw [erase, hi]

theorem getElem?_eraseIdxIfInBounds (as : Array Attribute) (i j : ℕ) :
    (as.eraseIdxIfInBounds i)[j]? = if j < i then as[j]? else as[j + 1]? := by
  rw [← Array.getElem?_toList, Array.toList_eraseIdxIfInBounds, List.getElem?_eraseIdx,
    Array.getElem?_toList, Array.getElem?_toList]

theorem getElem?_eraseIdxIfInBounds_shift (as : Array Attribute) {i j : ℕ} (hj : j ≠ i) :
    (as.eraseIdxIfInBounds i)[if i < j then j - 1 else j]? = as[j]? := by
  rw [getElem?_eraseIdxIfInBounds]
  split_ifs with h₁ h₂ h₂
  · omega
  · rw [Nat.sub_add_cancel (by omega)]
  · rfl
  · omega

/-- **Taking a value away keeps the table up to date.** -/
theorem Coherent.erase (h : m.Coherent) (name : String) : (m.erase name).2.Coherent := by
  cases hi : m.positions[name]? with
  | none => rwa [erase_of_none hi]
  | some i =>
    intro k j
    rw [erase_of_some hi, nameAt?, Std.HashMap.getElem?_map, Std.HashMap.getElem?_erase]
    by_cases hk : name = k
    · -- the name has left its only place
      subst hk
      have hat : ∀ j', m.nameAt? j' = some name → j' = i := fun j' hj' =>
        Option.some.inj (((h name j').mpr hj').symm.trans hi)
      rw [if_pos (beq_self_eq_true _), getElem?_eraseIdxIfInBounds]
      refine iff_of_false (by simp) fun e => ?_
      split_ifs at e with hj
      · have := hat _ e
        omega
      · have := hat _ e
        omega
    · rw [if_neg (by simpa using hk), Option.map_eq_some_iff]
      constructor
      · rintro ⟨a, ha, rfl⟩
        have hai : a ≠ i := fun e => hk (h.name_inj hi (e ▸ ha))
        rw [getElem?_eraseIdxIfInBounds_shift _ hai]
        exact (h k a).mp ha
      · intro e
        rw [getElem?_eraseIdxIfInBounds] at e
        split_ifs at e with hj
        · exact ⟨j, (h k j).mpr e, if_neg (by omega)⟩
        · exact ⟨j + 1, (h k (j + 1)).mpr e, if_pos (by omega)⟩

theorem Coherent.get?_erase (h : m.Coherent) (name k : String) :
    (m.erase name).2.get? k = if k = name then none else m.get? k := by
  cases hi : m.positions[name]? with
  | none =>
    rw [erase_of_none hi]
    split_ifs with hk
    · rw [hk, get?, hi]
      rfl
    · rfl
  | some i =>
    rw [erase_of_some hi, get?, Std.HashMap.getElem?_map, Std.HashMap.getElem?_erase]
    split_ifs with hnk hk hk
    · rfl
    · exact absurd (beq_iff_eq.mp hnk).symm hk
    · exact absurd (beq_iff_eq.mpr hk.symm) hnk
    · rw [get?]
      cases hj : m.positions[k]? with
      | none => rfl
      | some j =>
        have hji : j ≠ i := fun e => hk (h.name_inj hj (e ▸ hi))
        rw [Option.map_some, Option.bind_some, Option.bind_some,
          getElem?_eraseIdxIfInBounds_shift _ hji]

end MarkupQuery.Attributes
