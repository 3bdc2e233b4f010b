import MarkupQuery.Proofs.Selector.Recognize

/-!
# Longest written forms

A kind takes the longest written form that a text begins with. A form that does not stop where it
ends is the front of a longer one of the same kind, and the longest is the one that is read.

* `Simple.exists_longer`: a form that goes on, with **`SimpleKind.exists_read`**: what is read is at
  least as long;
* `Simple.eq_of_text_eq`: the written form and the kind tell the selector;
* `SimpleKind.Front`: the first bytes of a text as a written form, with `SimpleKind.front_iff`;
* **`SimpleKind.recognize?_eq_some`**, **`SimpleKind.isSome_recognize?_iff`**: what is recognized, and
  when something is.
-/

namespace MarkupQuery

variable {rest : List Char} {s : Simple} {input : String} {n : Nat}

/-! ## Longer forms -/

theorem IsName.push {start more : Char → Bool} {v : String} {c : Char} (h : IsName start more v)
    (hc : more c = true) : IsName start more (v.push c) := by
  obtain ⟨d, ds, hv, hd, hds⟩ := h
  refine ⟨d, ds ++ [c], by rw [String.toList_push, hv, List.cons_append], hd, fun x hx => ?_⟩
  rcases List.mem_append.mp hx with hx | hx
  · exact hds x hx
  · exact List.mem_singleton.mp hx ▸ hc

theorem dotted_concat (names : List String) (v : String) :
    dotted (names ++ [v]) = dotted names ++ '.' :: v.toList := by
  rw [dotted_append, dotted, dotted, List.flatMap_singleton]

theorem exists_head_of_not_stops {p : Char → Bool} (h : ¬ ∀ c ∈ rest.head?, p c = false) :
    ∃ c tail, rest = c :: tail ∧ p c = true := by
  cases rest with
  | nil => exact absurd (by simp) h
  | cons c tail => exact ⟨c, tail, rfl, by simpa using h⟩

theorem Simple.exists_longer (hw : s.WellFormed) (hs : ¬ s.Stops rest) :
    ∃ (s' : Simple) (more tail : List Char), s'.kind = s.kind ∧ s'.WellFormed ∧
      s'.text.toList = s.text.toList ++ more ∧ rest = more ++ tail ∧ more ≠ [] := by
  cases s with
  | universal | attr _ => exact absurd trivial hs
  | tag v =>
    obtain ⟨c, tail, rfl, hc⟩ := exists_head_of_not_stops hs
    exact ⟨.tag (v.push c), [c], tail, rfl, IsName.push hw hc, by simp [text], rfl, by simp⟩
  | id v =>
    obtain ⟨c, tail, rfl, hc⟩ := exists_head_of_not_stops hs
    exact ⟨.id (v.push c), [c], tail, rfl, IsName.push hw hc, by simp [text], rfl, by simp⟩
  | classes names =>
    obtain ⟨hne, hnames⟩ := hw
    by_cases hhead : ∀ c ∈ rest.head?, isIdentChar c = false
    · -- another class follows
      have hdot : ¬ ∀ c tail, rest = '.' :: c :: tail → isIdentChar c = false :=
        fun hdot => hs ⟨hhead, hdot⟩
      simp only [Classical.not_forall, Bool.not_eq_false] at hdot
      obtain ⟨c, tail, rfl, hc⟩ := hdot
      refine ⟨.classes (names ++ [String.singleton c]), ['.', c], tail, rfl, ⟨by simp, ?_⟩, ?_, rfl,
        by simp⟩
      · rw [List.forall_mem_append, List.forall_mem_singleton]
        exact ⟨hnames, c, [], String.toList_singleton c, hc, by simp⟩
      · rw [text_classes, text_classes, dotted_concat, String.toList_singleton]
    · -- the last class goes on
      obtain ⟨c, tail, rfl, hc⟩ := exists_head_of_not_stops hhead
      obtain ⟨init, v, rfl⟩ : ∃ init v, names = init ++ [v] :=
        ⟨_, _, (List.dropLast_concat_getLast hne).symm⟩
      rw [List.forall_mem_append, List.forall_mem_singleton] at hnames
      refine ⟨.classes (init ++ [v.push c]), [c], tail, rfl, ⟨by simp, ?_⟩, ?_, rfl, by simp⟩
      · rw [List.forall_mem_append, List.forall_mem_singleton]
        exact ⟨hnames.1, IsName.push hnames.2 hc⟩
      · rw [text_classes, text_classes, dotted_concat, dotted_concat]
        simp

/-- **Where a written form stands, one at least as long is read.** -/
theorem SimpleKind.exists_read (hw : s.WellFormed) (rest : List Char) :
    ∃ s' more tail, s.kind.read (s.text.toList ++ rest) = some (s', tail) ∧ rest = more ++ tail := by
  induction hn : rest.length using Nat.strongRecOn generalizing s rest with
  | ind n ih =>
    by_cases hs : s.Stops rest
    · exact ⟨s, [], rest, read_eq_some.mpr ⟨rfl, hw, hs, rfl⟩, rfl⟩
    · obtain ⟨s₁, more₁, rest₁, hk, hw₁, ht, rfl, hmore⟩ := Simple.exists_longer hw hs
      have hlt : rest₁.length < n := by
        have := List.length_pos_iff.mpr hmore
        rw [List.length_append] at hn
        omega
      obtain ⟨s', more, tail, hr, rfl⟩ := ih _ hlt hw₁ rest₁ rfl
      rw [ht, hk, List.append_assoc] at hr
      exact ⟨s', more₁ ++ more, tail, hr, (List.append_assoc _ _ _).symm⟩

theorem Simple.stops_nil (s : Simple) : s.Stops [] := by
  cases s <;> simp [Stops]

theorem Simple.eq_of_text_eq {s' : Simple} (hk : s'.kind = s.kind) (hw : s.WellFormed)
    (hw' : s'.WellFormed) (ht : s'.text = s.text) : s' = s := by
  have hread : ∀ {x : Simple}, x.kind = s.kind → x.WellFormed →
      s.kind.read x.text.toList = some (x, []) := fun hk hw =>
    SimpleKind.read_eq_some.mpr ⟨hk, hw, Simple.stops_nil _, (List.append_nil _).symm⟩
  have he := hread hk hw'
  rw [ht, hread rfl hw] at he
  exact (Prod.mk.inj (Option.some.inj he)).1.symm

/-! ## What is recognized -/

namespace SimpleKind

variable {k : SimpleKind}

/-- The first `n` bytes of a text, in UTF-8, are the written form of a selector of the kind. -/
structure Front (k : SimpleKind) (input : String) (s : Simple) (n : Nat) : Prop where
  kind : s.kind = k
  wellFormed : s.WellFormed
  /-- No character is cut in two. -/
  boundary : String.Pos.Raw.IsValid input ⟨n⟩
  bytes : input.toByteArray.extract 0 n = s.text.toByteArray

theorem extract_append (u v : String) :
    (u ++ v).toByteArray.extract 0 u.utf8ByteSize = u.toByteArray := by
  rw [String.toByteArray_append]
  exact ByteArray.extract_append_eq_left rfl

theorem front_iff : k.Front input s n ↔ (s.kind = k ∧ s.WellFormed) ∧
    ∃ tail, input = s.text ++ tail ∧ n = s.text.utf8ByteSize := by
  constructor
  · rintro ⟨hk, hw, hboundary, hbytes⟩
    obtain ⟨u, tail, rfl, hn⟩ := String.Pos.Raw.isValid_iff_exists_append.mp hboundary
    obtain rfl : n = u.utf8ByteSize := congrArg String.Pos.Raw.byteIdx hn
    rw [extract_append, String.toByteArray_inj] at hbytes
    exact ⟨⟨hk, hw⟩, tail, by rw [hbytes], by rw [hbytes]⟩
  · rintro ⟨⟨hk, hw⟩, tail, rfl, rfl⟩
    exact ⟨hk, hw, String.Pos.Raw.isValid_iff_exists_append.mpr ⟨s.text, tail, rfl, rfl⟩,
      extract_append _ _⟩

theorem recognize?_eq_some_of_read {tail : List Char} (h : k.read input.toList = some (s, tail)) :
    k.recognize? input = some (s, s.text.utf8ByteSize) ∧ input = s.text ++ String.ofList tail := by
  have hinput : input = s.text ++ String.ofList tail := by
    rw [← String.toList_inj, String.toList_append, String.toList_ofList]
    exact (read_eq_some.mp h).2.2.2
  have hsize := congrArg String.utf8ByteSize hinput
  rw [String.utf8ByteSize_append] at hsize
  refine ⟨?_, hinput⟩
  simp only [recognize?, h, Option.map_some, hsize, Nat.add_sub_cancel]

theorem exists_read_of_recognize? (h : k.recognize? input = some (s, n)) :
    n = s.text.utf8ByteSize ∧ ∃ tail, k.read input.toList = some (s, tail) := by
  obtain ⟨⟨s', tail⟩, hr, he⟩ := Option.map_eq_some_iff.mp h
  obtain ⟨rfl, -⟩ := Prod.mk.inj he
  rw [(recognize?_eq_some_of_read hr).1] at h
  exact ⟨(Prod.mk.inj (Option.some.inj h)).2.symm, tail, hr⟩

theorem front_of_recognize? (h : k.recognize? input = some (s, n)) : k.Front input s n := by
  obtain ⟨rfl, tail, hr⟩ := exists_read_of_recognize? h
  obtain ⟨hk, hw, -, -⟩ := read_eq_some.mp hr
  exact front_iff.mpr ⟨⟨hk, hw⟩, _, (recognize?_eq_some_of_read hr).2, rfl⟩

theorem exists_recognize?_of_front (h : k.Front input s n) :
    ∃ s' n', k.recognize? input = some (s', n') ∧ n ≤ n' := by
  obtain ⟨⟨rfl, hw⟩, rest, rfl, rfl⟩ := front_iff.mp h
  obtain ⟨s', more, tail, hr, hrest⟩ := exists_read hw rest.toList
  rw [← String.toList_append] at hr
  obtain ⟨hrec, hinput⟩ := recognize?_eq_some_of_read hr
  refine ⟨s', _, hrec, ?_⟩
  -- what is left behind the longer form is the end of what was left behind the shorter
  have hsize := congrArg String.utf8ByteSize hinput
  have hleft : rest = String.ofList more ++ String.ofList tail := by
    rw [← String.ofList_append, ← hrest, String.ofList_toList]
  rw [String.utf8ByteSize_append, hleft, String.utf8ByteSize_append,
    String.utf8ByteSize_append] at hsize
  omega

/-- **The longest written form of the kind is recognized.** -/
theorem recognize?_eq_some : k.recognize? input = some (s, n) ↔
    k.Front input s n ∧ ∀ s' n', k.Front input s' n' → n' ≤ n := by
  constructor
  · refine fun h => ⟨front_of_recognize? h, fun s' n' h' => ?_⟩
    obtain ⟨s₁, n₁, h₁, hle⟩ := exists_recognize?_of_front h'
    obtain ⟨rfl, rfl⟩ := Prod.mk.inj (Option.some.inj (h.symm.trans h₁))
    exact hle
  · rintro ⟨h, hmax⟩
    obtain ⟨s₁, n₁, h₁, hle⟩ := exists_recognize?_of_front h
    have hfront := front_of_recognize? h₁
    obtain rfl : n₁ = n := Nat.le_antisymm (hmax s₁ n₁ hfront) hle
    have ht : s.text = s₁.text := String.toByteArray_inj.mp (h.bytes.symm.trans hfront.bytes)
    rw [h₁, Simple.eq_of_text_eq (h.kind.trans hfront.kind.symm) hfront.wellFormed h.wellFormed ht]

/-- **Something is recognized just if a written form is the front.** -/
theorem isSome_recognize?_iff :
    (k.recognize? input).isSome = true ↔ ∃ s n, k.Front input s n := by
  rw [Option.isSome_iff_exists]
  constructor
  · rintro ⟨⟨s, n⟩, h⟩
    exact ⟨s, n, front_of_recognize? h⟩
  · rintro ⟨s, n, h⟩
    obtain ⟨s', n', h', -⟩ := exists_recognize?_of_front h
    exact ⟨_, h'⟩

end SimpleKind

end MarkupQuery
