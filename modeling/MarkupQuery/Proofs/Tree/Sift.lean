import MarkupQuery.Proofs.Tree.FirstIds

/-!
# Sifted trees

A tree is sifted when nodes are left out because of what they hold. The others move up in the array,
and all references to them with it.

* `getElem?_filter_countP`, `countP_take_lt`, `exists_countP_take`: where an element of a list
  stands in a sublist;
* `map_concat_new`: the last element under a new name;
* `Tree.keeps`, `Tree.renumber`: the nodes that are not left out, and their new ids;
* `Tree.RecordsAlike`: the same records of ids under new ids;
* `Tree.Sifts`: the second tree is the first one sifted, with **`Sifts.content?`** and
  **`Sifts.contains_iff`**;
* **`Sifts.append`**, **`Sifts.drop`**: both trees get a new node, or the first one alone.
-/

namespace MarkupQuery

/-! ## Places in a sublist -/

section Places

variable {α : Type} {p : α → Bool} {l : List α} {i j : ℕ} {a : α}

theorem getElem?_filter_countP (hi : l[i]? = some a) (ha : p a = true) :
    (l.filter p)[(l.take i).countP p]? = some a := by
  obtain ⟨hlt, rfl⟩ := List.getElem?_eq_some_iff.mp hi
  have hsplit : l = l.take i ++ l[i] :: l.drop (i + 1) := by
    rw [← List.drop_eq_getElem_cons hlt, List.take_append_drop]
  have hfilter : l.filter p = (l.take i).filter p ++ l[i] :: (l.drop (i + 1)).filter p := by
    conv_lhs => rw [hsplit, List.filter_append, List.filter_cons_of_pos ha]
  rw [hfilter, List.countP_eq_length_filter, List.getElem?_append_right le_rfl, Nat.sub_self]
  rfl

theorem countP_take_lt (hi : l[i]? = some a) (ha : p a = true) (hij : i < j) :
    (l.take i).countP p < (l.take j).countP p := by
  have hsucc : (l.take (i + 1)).countP p = (l.take i).countP p + 1 := by
    rw [List.take_add_one, hi, List.countP_append]
    simp [ha]
  have hle : (l.take (i + 1)).countP p ≤ (l.take j).countP p :=
    (List.take_sublist_take_left hij).countP_le
  omega

theorem exists_countP_take (hj : j < (l.filter p).length) :
    ∃ i a, l[i]? = some a ∧ p a = true ∧ (l.take i).countP p = j := by
  induction l using List.reverseRecOn with
  | nil => exact absurd hj (Nat.not_lt_zero j)
  | append_singleton l a ih =>
    have hold : j < (l.filter p).length →
        ∃ i b, (l ++ [a])[i]? = some b ∧ p b = true ∧ ((l ++ [a]).take i).countP p = j := by
      intro hj
      obtain ⟨i, b, hi, hb, hcount⟩ := ih hj
      obtain ⟨hlt, -⟩ := List.getElem?_eq_some_iff.mp hi
      refine ⟨i, b, ?_, hb, ?_⟩
      · rw [List.getElem?_append_left hlt, hi]
      · rw [List.take_append_of_le_length hlt.le, hcount]
    rw [List.filter_append] at hj
    by_cases ha : p a = true
    · rw [List.filter_cons_of_pos ha, List.filter_nil, List.length_append,
        List.length_singleton] at hj
      rcases Nat.lt_succ_iff_lt_or_eq.mp hj with hj | rfl
      · exact hold hj
      · refine ⟨l.length, a, List.getElem?_concat_length, ha, ?_⟩
        rw [List.take_left, List.countP_eq_length_filter]
    · rw [List.filter_cons_of_neg ha, List.filter_nil, List.append_nil] at hj
      exact hold hj

theorem map_concat_new {β : Type} [DecidableEq α] [DecidableEq β] {f : α → β}
    (hf : ∀ b ∈ l, f b = f a → b = a) :
    (if l.contains a then l else l ++ [a]).map f =
      if (l.map f).contains (f a) then l.map f else l.map f ++ [f a] := by
  have hmem : (l.map f).contains (f a) = l.contains a := by
    rw [Bool.eq_iff_iff, List.contains_iff_mem, List.contains_iff_mem, List.mem_map]
    exact ⟨fun ⟨b, hb, e⟩ => hf b hb e ▸ hb, fun ha => ⟨a, ha, rfl⟩⟩
  rw [hmem, apply_ite (List.map f), List.map_append, List.map_singleton]

end Places

namespace Tree

variable {keep : Content → Bool} {t₀ t t₀' t' : Tree} {kids : NodeId → List NodeId}
  {r : NodeId → NodeId} {p n m : NodeId} {content : Content}

/-! ## New ids -/

/-- The node holds something that is kept. -/
def keeps (keep : Content → Bool) (t : Tree) (n : NodeId) : Bool := (t.content? n).any keep

/-- The id that a node has when the nodes before it are left out that are not kept. -/
def renumber (keep : Content → Bool) (t : Tree) : NodeId → NodeId
  | .null => .null
  | .slot i => .slot ((t.contents.take i).countP keep)

theorem contains_of_keeps (hn : t.keeps keep n = true) : t.contains n = true := by
  rw [contains_eq_isSome_content?]
  rw [keeps] at hn
  exact Option.isSome_of_any hn

theorem keeps_slot {i : ℕ} : t.keeps keep (.slot i) = true ↔
    ∃ content, t.contents[i]? = some content ∧ keep content = true := by
  rw [keeps, content?_slot, Option.any_eq_true]

theorem renumber_inj (hn : t.keeps keep n = true) (hm : t.keeps keep m = true)
    (e : t.renumber keep n = t.renumber keep m) : n = m := by
  obtain ⟨i, -, rfl⟩ := contains_iff.mp (contains_of_keeps hn)
  obtain ⟨j, -, rfl⟩ := contains_iff.mp (contains_of_keeps hm)
  obtain ⟨a, ha, hka⟩ := keeps_slot.mp hn
  obtain ⟨b, hb, hkb⟩ := keeps_slot.mp hm
  have e := NodeId.slot.inj e
  rcases lt_trichotomy i j with hij | rfl | hij
  · exact absurd e (countP_take_lt ha hka hij).ne
  · rfl
  · exact absurd e (countP_take_lt hb hkb hij).ne'

namespace Appends

variable (ha : t.Appends p content t')

include ha

theorem keeps_of_contains (hn : t.contains n = true) : t'.keeps keep n = t.keeps keep n := by
  rw [keeps, ha.content?, if_neg (ne_slot_size hn), keeps]

theorem keeps_new : t'.keeps keep (.slot t.size) = keep content := by
  rw [keeps, ha.content?, if_pos rfl, Option.any_some]

theorem renumber (hn : t'.contains n = true) : t'.renumber keep n = t.renumber keep n := by
  obtain ⟨i, hi, rfl⟩ := Tree.contains_iff.mp hn
  rw [ha.size, ← length_contents] at hi
  rw [Tree.renumber, Tree.renumber, ha.contents,
    List.take_append_of_le_length (Nat.le_of_lt_succ hi)]

theorem contains_of_contains (hn : t.contains n = true) : t'.contains n = true :=
  ha.contains_iff.mpr (.inr hn)

theorem map_filter_eq (keep : Content → Bool) {l : List NodeId}
    (hl : ∀ n ∈ l, t.contains n = true) :
    (l.filter (t'.keeps keep)).map (t'.renumber keep) =
      (l.filter (t.keeps keep)).map (t.renumber keep) := by
  rw [List.filter_congr fun n hn => ha.keeps_of_contains (hl n hn)]
  exact List.map_congr_left fun n hn =>
    ha.renumber (ha.contains_of_contains (hl n (List.mem_of_mem_filter hn)))

end Appends

/-! ## Records of ids -/

/-- The tables of ids of the second tree say the same about the nodes, under their new ids. -/
def RecordsAlike (r : NodeId → NodeId) (t₀ t : Tree) : Prop :=
  ∀ v, t.indexedElement? v = (t₀.indexedElement? v).map r ∧ t.owners v = (t₀.owners v).map r

theorem RecordsAlike.congr (h : RecordsAlike r t₀ t) {r' : NodeId → NodeId}
    (hr : ∀ n, t₀.IsRecorded n → r' n = r n) : RecordsAlike r' t₀ t := by
  intro v
  obtain ⟨hindexed, howners⟩ := h v
  refine ⟨hindexed.trans ?_, howners.trans ?_⟩
  · exact Option.map_congr fun n hn => (hr n ⟨v, .inl hn⟩).symm
  · exact List.map_congr_left fun n hn => (hr n ⟨v, .inr hn⟩).symm

/-- **An attribute that both trees are given leaves their records alike.** -/
theorem RecordsAlike.withAttribute {kids₀ : NodeId → List NodeId} (h : RecordsAlike r t₀ t)
    (hw₀ : t₀.WellLinked kids₀) (hconn₀ : ∀ m, t₀.isElement m = true → t₀.isConnected m = true)
    (hw : t.WellLinked kids) (hconn : ∀ m, t.isElement m = true → t.isConnected m = true)
    (name value : String)
    (hcarries : ∀ m, t₀.IsRecorded m → ∀ v, (t.withAttribute (r n) name value).carriesId (r m) v =
      (t₀.withAttribute n name value).carriesId m v)
    (hinj : ∀ m, t₀.IsRecorded m → r m = r n → m = n) :
    RecordsAlike r (t₀.withAttribute n name value) (t.withAttribute (r n) name value) := by
  intro w
  obtain ⟨hindexed, howners⟩ := h value
  rw [hw.indexedElement?_withAttribute hconn, hw₀.indexedElement?_withAttribute hconn₀,
    owners_withAttribute, owners_withAttribute]
  by_cases hvalue : (name = "id" ∧ value ≠ "") ∧ w = value
  · have hany : (t.indexedElement? value).any
        ((t.withAttribute (r n) name value).carriesId · value) =
        (t₀.indexedElement? value).any ((t₀.withAttribute n name value).carriesId · value) := by
      rw [hindexed]
      cases hm : t₀.indexedElement? value with
      | none => rfl
      | some m => exact hcarries m ⟨value, .inl hm⟩ value
    have hkept : (t.owners value).filter ((t.withAttribute (r n) name value).carriesId · value) =
        ((t₀.owners value).filter ((t₀.withAttribute n name value).carriesId · value)).map r := by
      rw [howners, List.filter_map]
      exact congrArg _ (List.filter_congr fun m hm => hcarries m ⟨value, .inr hm⟩ value)
    rw [if_pos hvalue, if_pos hvalue, if_pos hvalue, if_pos hvalue, hany, hkept]
    refine ⟨?_, (map_concat_new fun m hm => hinj m ⟨value, .inr (List.mem_of_mem_filter hm)⟩).symm⟩
    split_ifs
    · exact hindexed
    · rfl
  · rw [if_neg hvalue, if_neg hvalue, if_neg hvalue, if_neg hvalue]
    exact h w

/-! ## Sifting -/

/-- The second tree is the first one without the nodes that are not kept. The others keep their
order and what they hold. -/
structure Sifts (keep : Content → Bool) (t₀ t : Tree) : Prop where
  contents : t.contents = t₀.contents.filter keep
  children : ∀ n, t₀.keeps keep n = true → t.children (t₀.renumber keep n) =
    ((t₀.children n).filter (t₀.keeps keep)).map (t₀.renumber keep)
  records : RecordsAlike (t₀.renumber keep) t₀ t

namespace Sifts

variable (hs : t₀.Sifts keep t)

include hs

theorem content? (hn : t₀.keeps keep n = true) :
    t.content? (t₀.renumber keep n) = t₀.content? n := by
  obtain ⟨i, -, rfl⟩ := Tree.contains_iff.mp (contains_of_keeps hn)
  obtain ⟨a, ha, hka⟩ := keeps_slot.mp hn
  rw [renumber, content?_slot, content?_slot, hs.contents, ha, getElem?_filter_countP ha hka]

theorem contains (hn : t₀.keeps keep n = true) : t.contains (t₀.renumber keep n) = true := by
  rw [contains_eq_isSome_content?, hs.content? hn, ← contains_eq_isSome_content?]
  exact contains_of_keeps hn

/-- **The new ids are those of the second tree**, without gaps. -/
theorem contains_iff : t.contains m = true ↔
    ∃ n, t₀.keeps keep n = true ∧ t₀.renumber keep n = m := by
  refine ⟨fun hm => ?_, fun ⟨n, hn, e⟩ => e ▸ hs.contains hn⟩
  obtain ⟨j, hj, rfl⟩ := Tree.contains_iff.mp hm
  rw [← length_contents, hs.contents] at hj
  obtain ⟨i, content, hi, hk, hcount⟩ := exists_countP_take hj
  exact ⟨.slot i, keeps_slot.mpr ⟨content, hi, hk⟩, congrArg NodeId.slot hcount⟩

theorem renumber_size : t₀.renumber keep (.slot t₀.size) = .slot t.size := by
  rw [renumber, ← length_contents, List.take_length, ← length_contents, hs.contents,
    List.countP_eq_length_filter]

/-! ## One more node -/

/-- **A new node that is kept comes to both trees**, under the same parent. -/
theorem append (h₀ : t₀.WellLinked t₀.children) (h : t.WellLinked t.children)
    (hp : t₀.keeps keep p = true) (hk : keep content = true) (ha₀ : t₀.Appends p content t₀')
    (ha : t.Appends (t₀.renumber keep p) content t')
    (hr : RecordsAlike (t₀.renumber keep) t₀' t')
    (hrec : ∀ n, t₀'.IsRecorded n → t₀'.contains n = true) : t₀'.Sifts keep t' := by
  refine ⟨?_, fun n hn => ?_, hr.congr fun n hn => ha₀.renumber (hrec n hn)⟩
  · rw [ha.contents, hs.contents, ha₀.contents, List.filter_append, List.filter_cons_of_pos hk,
      List.filter_nil]
  rcases ha₀.contains_iff.mp (contains_of_keeps hn) with rfl | hold
  · rw [ha₀.renumber (contains_of_keeps hn), hs.renumber_size, ha.children,
      if_neg (ne_slot_size (hs.contains hp)).symm, h.children_eq_nil t.contains_slot_size,
      ha₀.children, if_neg (ne_slot_size (contains_of_keeps hp)).symm,
      h₀.children_eq_nil t₀.contains_slot_size]
    rfl
  · have hn₀ : t₀.keeps keep n = true := ha₀.keeps_of_contains hold ▸ hn
    have hlist := ha₀.map_filter_eq keep fun m (hm : m ∈ t₀.children n) =>
      (h₀.contains_of_below (.single hm)).2
    rw [ha₀.renumber (contains_of_keeps hn), ha.children, ha₀.children]
    by_cases hnp : n = p
    · have hnew : t₀'.contains (.slot t₀.size) = true := ha₀.contains_iff.mpr (.inl rfl)
      subst hnp
      rw [if_pos rfl, if_pos rfl, hs.children n hn₀, List.filter_append, List.map_append, hlist,
        List.filter_cons_of_pos (ha₀.keeps_new.trans hk), List.filter_nil, List.map_singleton,
        ha₀.renumber hnew, hs.renumber_size]
    · rw [if_neg fun e => hnp (renumber_inj hn₀ hp e), if_neg hnp, hs.children n hn₀, hlist]

/-- **A new node that is not kept comes to the first tree alone.** -/
theorem drop (h₀ : t₀.WellLinked t₀.children) (hk : keep content = false)
    (ha : t₀.Appends p content t₀') (hindexed : t₀'.indexedElement? = t₀.indexedElement?)
    (howners : t₀'.owners = t₀.owners) (hrec : ∀ n, t₀.IsRecorded n → t₀.contains n = true) :
    t₀'.Sifts keep t := by
  have hold : ∀ {n}, t₀'.keeps keep n = true → t₀.contains n = true := by
    intro n hn
    refine (ha.contains_iff.mp (contains_of_keeps hn)).resolve_left ?_
    rintro rfl
    rw [ha.keeps_new, hk] at hn
    cases hn
  have hrecords : RecordsAlike (t₀.renumber keep) t₀' t := by
    rw [RecordsAlike, hindexed, howners]
    exact hs.records
  refine ⟨?_, fun n hn => ?_, hrecords.congr fun n hn => ha.renumber ?_⟩
  · rw [hs.contents, ha.contents, List.filter_append, List.filter_cons_of_neg (by simp [hk]),
      List.filter_nil, List.append_nil]
  · have hlist := ha.map_filter_eq keep fun m (hm : m ∈ t₀.children n) =>
      (h₀.contains_of_below (.single hm)).2
    have hnew : [NodeId.slot t₀.size].filter (t₀'.keeps keep) = [] := by
      rw [List.filter_cons_of_neg (by simp [ha.keeps_new, hk]), List.filter_nil]
    rw [ha.renumber (contains_of_keeps hn), hs.children n (ha.keeps_of_contains (hold hn) ▸ hn),
      ha.children, ← hlist]
    split_ifs with hnp
    · rw [hnp, List.filter_append, hnew, List.append_nil]
    · rfl
  · refine ha.contains_of_contains (hrec n ?_)
    rwa [IsRecorded, hindexed, howners] at hn

end Sifts

end Tree

end MarkupQuery
