import MarkupQuery.Text.Reader

/-!
# What readers read

Each reader is described by an equivalence: it gives a value and a rest exactly when the text is a
written form of the value followed by the rest, and the rest does not go on where the reader stopped.

* `IsName`: a first character of one class, then characters of another;
* **`readName_eq_some`**, **`readUntil_eq_some`**;
* `Reader.map_eq_some`, `Reader.after_eq_some`;
* `Reader.many_eq_nil`, `Reader.many_eq_cons`: a repetition, one reading at a time.
-/

namespace MarkupQuery

/-! ## Names and delimited texts -/

/-- A character of the class `start` followed by characters of the class `more`. -/
def IsName (start more : Char → Bool) (v : String) : Prop :=
  ∃ c cs, v.toList = c :: cs ∧ start c = true ∧ ∀ d ∈ cs, more d = true

section

variable {p : Char → Bool} {l rest cs : List Char} {v : String}

theorem not_head_dropWhile (p : Char → Bool) (cs : List Char) :
    ∀ c ∈ (cs.dropWhile p).head?, p c = false := by
  intro c hc
  have := List.head?_dropWhile_not p cs
  rw [hc] at this
  simpa using this

theorem takeWhile_append_stop (hl : ∀ d ∈ l, p d = true) (hr : ∀ c ∈ rest.head?, p c = false) :
    (l ++ rest).takeWhile p = l := by
  rw [List.takeWhile_append_of_pos hl]
  cases rest with
  | nil => rw [List.takeWhile_nil, List.append_nil]
  | cons c rest =>
    rw [List.takeWhile_cons_of_neg (by simp [hr c rfl]), List.append_nil]

theorem dropWhile_append_stop (hl : ∀ d ∈ l, p d = true) (hr : ∀ c ∈ rest.head?, p c = false) :
    (l ++ rest).dropWhile p = rest := by
  rw [List.dropWhile_append_of_pos hl]
  cases rest with
  | nil => rfl
  | cons c rest => exact List.dropWhile_cons_of_neg (by simp [hr c rfl])

variable {start more : Char → Bool}

/-- **A name is read as far as it goes.** -/
theorem readName_eq_some : readName start more cs = some (v, rest) ↔
    IsName start more v ∧ (∀ c ∈ rest.head?, more c = false) ∧ cs = v.toList ++ rest := by
  constructor
  · intro h
    cases cs with
    | nil => cases h
    | cons c cs =>
      rw [readName, Option.ite_none_right_eq_some, Option.some.injEq, Prod.mk.injEq] at h
      obtain ⟨hc, rfl, rfl⟩ := h
      refine ⟨⟨c, cs.takeWhile more, String.toList_ofList, hc, ?_⟩, not_head_dropWhile more cs, ?_⟩
      · exact fun d hd => List.all_eq_true.mp List.all_takeWhile d hd
      · rw [String.toList_ofList, List.cons_append, List.takeWhile_append_dropWhile]
  · rintro ⟨⟨c, ds, hv, hc, hds⟩, hr, rfl⟩
    rw [hv, List.cons_append, readName, if_pos hc, takeWhile_append_stop hds hr,
      dropWhile_append_stop hds hr, ← hv, String.ofList_toList]

/-- **A delimited text is what stands before the first delimiter.** -/
theorem readUntil_eq_some {c : Char} : readUntil c cs = some (v, rest) ↔
    c ∉ v.toList ∧ cs = v.toList ++ c :: rest := by
  rw [readUntil]
  constructor
  · intro h
    split at h
    · cases h
    · rename_i d tail hd
      obtain ⟨rfl, rfl⟩ := Prod.mk.inj (Option.some.inj h)
      have hdc : d = c := by
        have := not_head_dropWhile (fun x => decide (x ≠ c)) cs d (by rw [hd]; rfl)
        simpa using this
      refine ⟨fun hc => ?_, ?_⟩
      · rw [String.toList_ofList] at hc
        simpa using List.all_eq_true.mp List.all_takeWhile c hc
      · rw [String.toList_ofList, ← hdc, ← hd, hdc, List.takeWhile_append_dropWhile]
  · rintro ⟨hc, rfl⟩
    have hv : ∀ d ∈ v.toList, decide (d ≠ c) = true := fun d hd =>
      decide_eq_true fun e => hc (e ▸ hd)
    have hr : ∀ d ∈ (c :: rest).head?, decide (d ≠ c) = false := by simp
    simp only [dropWhile_append_stop hv hr, takeWhile_append_stop hv hr, String.ofList_toList]

end

/-! ## Readers made of readers -/

namespace Reader

variable {α β : Type} {r : Reader α} {cs rest left : List Char} {a : α} {as : List α}

theorem map_eq_some {f : α → β} {b : β} :
    r.map f cs = some (b, rest) ↔ ∃ a, r cs = some (a, rest) ∧ f a = b := by
  rw [Reader.map, Option.map_eq_some_iff]
  constructor
  · rintro ⟨⟨a, rest'⟩, ha, he⟩
    obtain ⟨rfl, rfl⟩ := Prod.mk.inj he
    exact ⟨a, ha, rfl⟩
  · rintro ⟨a, ha, rfl⟩
    exact ⟨(a, rest), ha, rfl⟩

theorem after_eq_some {c : Char} :
    r.after c cs = some (a, rest) ↔ ∃ tail, cs = c :: tail ∧ r tail = some (a, rest) := by
  cases cs with
  | nil => simp [Reader.after]
  | cons d cs =>
    rw [Reader.after, Option.ite_none_right_eq_some]
    constructor
    · rintro ⟨rfl, h⟩
      exact ⟨cs, rfl, h⟩
    · rintro ⟨tail, he, h⟩
      obtain ⟨rfl, rfl⟩ := List.cons.inj he
      exact ⟨rfl, h⟩

theorem many_eq_nil {hr : r.Shrinks} : r.many hr cs = ([], left) ↔ r cs = none ∧ left = cs := by
  rw [Reader.many]
  split
  · rename_i hn
    simp [hn, eq_comm]
  · rename_i hs
    simp [hs]

theorem many_eq_cons {hr : r.Shrinks} : r.many hr cs = (a :: as, left) ↔
    ∃ rest, r cs = some (a, rest) ∧ r.many hr rest = (as, left) := by
  rw [Reader.many]
  split
  · rename_i hn
    simp [hn]
  · rename_i b rest hs
    simp only [List.cons.injEq, hs, Option.some.injEq, Prod.ext_iff]
    constructor
    · rintro ⟨⟨rfl, rfl⟩, rfl⟩
      exact ⟨rest, ⟨rfl, rfl⟩, rfl, rfl⟩
    · rintro ⟨rest', ⟨rfl, rfl⟩, h₁, h₂⟩
      exact ⟨⟨rfl, h₁⟩, h₂⟩

theorem many1_eq_some {hr : r.Shrinks} : r.many1 hr cs = some (as, left) ↔
    as ≠ [] ∧ r.many hr cs = (as, left) := by
  rw [Reader.many1]
  cases as with
  | nil =>
    cases r cs with
    | none => simp
    | some s => simp
  | cons a as =>
    rw [many_eq_cons]
    cases r cs with
    | none => simp
    | some s =>
      obtain ⟨b, rest⟩ := s
      simp only [Option.some.injEq, List.cons.injEq, ne_eq, reduceCtorEq, not_false_eq_true, true_and,
        Prod.ext_iff]
      constructor
      · rintro ⟨⟨rfl, rfl⟩, rfl⟩
        exact ⟨rest, ⟨rfl, rfl⟩, rfl, rfl⟩
      · rintro ⟨rest', ⟨rfl, rfl⟩, h₁, h₂⟩
        exact ⟨⟨rfl, h₁⟩, h₂⟩

end Reader

end MarkupQuery
