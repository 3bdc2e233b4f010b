import MarkupQuery.Proofs.Tree.Attributes

/-!
# Owners of ids

The tree records who is given an id value. As long as every change of an attribute goes through the
tree, no element that carries a value is missing from the record, so that a value recorded for one
element alone is carried by no other.

* `Tree.owners`, `Tree.mem_ownersWith`: what is recorded for a value;
* `Tree.Tracks`: nothing is missing, with `Tracks.congr`, **`Tracks.withAttribute`**,
  `Tracks.eraseAttribute`;
* **`Tree.tracks_after`**: the record is complete in every tree that comes of tracked changes;
* `Tree.Tracks.eq_of_soleOwner`: a sole owner is the only element with the value;
* `Tracks.mem_owners_withAttribute`, **`Tree.owners_after`**: right after a value is given, the
  record holds the elements that carry it and no others.
-/

namespace MarkupQuery

namespace Tree

variable {t t' : Tree} {n m : NodeId} {v : String}

/-! ## Carriers -/

theorem isElement_of_carriesId (hm : t.carriesId m v = true) : t.isElement m = true := by
  rw [carriesId, attribute?, decide_eq_true_iff] at hm
  exact Option.isSome_of_isSome_bind (Option.isSome_of_eq_some hm)

/-! ## The record -/

/-- The elements recorded for an id value. -/
def owners (t : Tree) (v : String) : List NodeId := t.idOwners.getD v []

theorem soleOwner?_eq_some : t.soleOwner? v = some n ↔ t.owners v = [n] := by
  rw [soleOwner?, owners, Std.HashMap.getD_eq_getD_getElem?]
  cases t.idOwners[v]? with
  | none => simp
  | some l =>
    match l with
    | [] => simp
    | [m] => simp
    | m :: m' :: l => simp

theorem owners_recordId (t : Tree) (n : NodeId) (v w : String) :
    (t.recordId n v).owners w = if w = v then t.ownersWith n v else t.owners w := by
  rw [owners, recordId]
  dsimp only
  rw [Std.HashMap.getD_insert, owners]
  by_cases hw : w = v
  · rw [if_pos hw, if_pos (beq_iff_eq.mpr hw.symm)]
  · rw [if_neg hw, if_neg fun e => hw (beq_iff_eq.mp e).symm]

theorem mem_ownersWith : m ∈ t.ownersWith n v ↔
    m = n ∨ m ∈ t.owners v ∧ t.carriesId m v = true := by
  simp only [ownersWith]
  split_ifs with hn
  · rw [List.mem_filter]
    refine ⟨.inr, ?_⟩
    rintro (rfl | hm)
    · exact List.mem_filter.mp (List.contains_iff_mem.mp hn)
    · exact hm
  · rw [List.mem_append, List.mem_filter, List.mem_singleton, or_comm]
    rfl

theorem nodup_ownersWith (h : (t.owners v).Nodup) : (t.ownersWith n v).Nodup := by
  have hf := h.filter (t.carriesId · v)
  simp only [ownersWith]
  split_ifs with hn
  · exact hf
  · refine List.nodup_append.mpr ⟨hf, List.nodup_singleton n, fun a ha b hb e => hn ?_⟩
    rw [List.contains_iff_mem, ← List.mem_singleton.mp hb, ← e]
    exact ha

theorem owners_modifyAttributes (t : Tree) (n : NodeId) (f : Attributes → Attributes) (v : String) :
    (t.modifyAttributes n f).owners v = t.owners v := by
  rw [owners, modifyAttributes, (tables_modify t n _).2, owners]

theorem ownersWith_of_owners_eq_nil (hnone : t.owners v = []) (n : NodeId) :
    t.ownersWith n v = [n] := by
  rw [owners] at hnone
  simp [ownersWith, hnone]

theorem soleOwner?_withAttribute (hv : v ≠ "") (hnone : t.owners v = []) (n : NodeId) :
    (t.withAttribute n "id" v).soleOwner? v = some n := by
  rw [soleOwner?_eq_some, withAttribute, if_pos (by simpa using hv), owners_recordId, if_pos rfl]
  exact ownersWith_of_owners_eq_nil (by rw [owners_modifyAttributes, hnone]) n

theorem owners_withAttribute_of_ne {w : String} (hw : w ≠ v) :
    (t.withAttribute n "id" v).owners w = t.owners w := by
  rw [withAttribute]
  split_ifs
  · rw [owners_recordId, if_neg hw, owners_modifyAttributes]
  · exact owners_modifyAttributes ..

/-! ## Complete records -/

/-- The attributes can be looked up, and every element is recorded for its id, once. -/
structure Tracks (t : Tree) : Prop where
  coherent : ∀ {n e}, t.element? n = some e → e.attributes.Coherent
  owned : ∀ {n v}, t.carriesId n v = true → v ≠ "" → n ∈ t.owners v
  nodup : ∀ v, (t.owners v).Nodup

theorem tracks_empty : Tree.empty.Tracks := by
  have howners : ∀ v, Tree.empty.owners v = [] := fun v => by simp [owners, empty]
  refine ⟨fun he => coherent_empty he, fun {n v} hn => ?_, fun v => ?_⟩
  · rw [carriesId, attribute?, element?_empty, decide_eq_true_iff] at hn
    cases hn
  · rw [howners]
    exact List.nodup_nil

namespace Tracks

variable (h : t.Tracks)

include h

theorem attributes : t.Coherent := fun _ _ he => h.coherent he

theorem eq_of_soleOwner (hv : v ≠ "") (hn : t.soleOwner? v = some n)
    (hm : t.carriesId m v = true) : m = n := by
  have := h.owned hm hv
  rw [soleOwner?_eq_some.mp hn] at this
  exact List.mem_singleton.mp this

theorem congr (hd : t.SameData t') : t'.Tracks := by
  have howners : t'.owners = t.owners := funext fun v => by rw [owners, owners, hd.idOwners]
  refine ⟨fun he => h.attributes.congr hd he, fun {n v} hn hv => ?_, fun v => ?_⟩
  · rw [carriesId, attribute?, hd.element?] at hn
    rw [howners]
    exact h.owned hn hv
  · rw [howners]
    exact h.nodup v

theorem push {content : Content} (hc : ∀ e ∈ content.element?, e.attributes = .empty) :
    (t.push content).2.Tracks := by
  refine ⟨fun he => h.attributes.push hc he, fun {n v} hn hv => h.owned (v := v) ?_ hv, h.nodup⟩
  rw [carriesId, attribute?, element?_push] at hn
  split_ifs at hn
  · cases he : content.element? with
    | none => simp [he] at hn
    | some e => simp [he, hc e he, Attributes.get?, Attributes.empty] at hn
  · exact hn

/-! ## Giving and taking a value -/

/-- **An element that is given a value is recorded.** -/
theorem withAttribute (n : NodeId) (name value : String) :
    (t.withAttribute n name value).Tracks := by
  have hset := h.attributes.attribute?_set n name value
  have howners := t.owners_modifyAttributes n fun a => (a.set name value).2
  have hcoherent := h.attributes.modifyAttributes (n := n) fun a ha => ha.set name value
  rw [Tree.withAttribute]
  generalize (t.modifyAttributes n fun a => (a.set name value).2) = t' at hset howners hcoherent ⊢
  split_ifs with hid
  · obtain ⟨rfl, -⟩ : name = "id" ∧ value ≠ "" := by simpa using hid
    refine ⟨fun he => hcoherent he, fun {m v} hm hv => ?_, fun v => ?_⟩
    · change t'.carriesId m v = true at hm
      rw [owners_recordId]
      split_ifs with hvv
      · rw [mem_ownersWith, ← hvv]
        refine or_iff_not_imp_left.mpr fun hmn => ⟨?_, hm⟩
        rw [carriesId, hset, if_neg fun hmn' => hmn hmn'.1] at hm
        rw [howners]
        exact h.owned hm hv
      · rw [carriesId, hset, decide_eq_true_iff] at hm
        rw [howners]
        split_ifs at hm with hmn
        · exact absurd (Option.some.inj hm).symm hvv
        · exact h.owned (decide_eq_true hm) hv
    · rw [owners_recordId]
      split_ifs
      · exact nodup_ownersWith (howners value ▸ h.nodup value)
      · exact howners v ▸ h.nodup v
  · refine ⟨fun he => hcoherent he, fun {m v} hm hv => ?_, fun v => howners v ▸ h.nodup v⟩
    rw [carriesId, hset, decide_eq_true_iff] at hm
    rw [howners]
    split_ifs at hm with hmn
    -- only the empty value is not recorded
    · obtain rfl := Option.some.inj hm
      exact absurd (by simpa [hmn.2.2.symm] using hid) hv
    · exact h.owned (decide_eq_true hm) hv

theorem carriesId_withAttribute (he : t.isElement n = true) (v : String) :
    (t.withAttribute n "id" v).carriesId n v = true := by
  have hset : (t.modifyAttributes n fun a => (a.set "id" v).2).carriesId n v = true := by
    rw [carriesId, h.attributes.attribute?_set, if_pos ⟨rfl, he, rfl⟩, decide_eq_true_iff]
  rw [Tree.withAttribute]
  split_ifs <;> exact hset

theorem carriesId_withAttribute_iff (n : NodeId) (v : String) (m : NodeId) (w : String) :
    (t.withAttribute n "id" v).carriesId m w = true ↔
      if m = n ∧ t.isElement n = true then v = w else t.carriesId m w = true := by
  rw [carriesId, h.attributes.attribute?_withAttribute, decide_eq_true_iff, carriesId, decide_eq_true_iff]
  simp only [and_true]
  split_ifs
  · exact Option.some_inj
  · rfl

/-- **Right after a value is given, the record holds just the elements that carry it.** -/
theorem mem_owners_withAttribute (he : t.isElement n = true) (hv : v ≠ "") :
    m ∈ (t.withAttribute n "id" v).owners v ↔ (t.withAttribute n "id" v).carriesId m v = true := by
  refine ⟨fun hm => ?_, fun hm => (h.withAttribute n "id" v).owned hm hv⟩
  by_cases hmn : m = n
  · exact hmn ▸ h.carriesId_withAttribute he v
  · rw [Tree.withAttribute, if_pos (by simpa using hv)] at hm ⊢
    rw [owners_recordId, if_pos rfl, mem_ownersWith] at hm
    exact (hm.resolve_left hmn).2

theorem eraseAttribute (n : NodeId) (name : String) :
    (t.modifyAttributes n fun a => (a.erase name).2).Tracks := by
  have hcoherent := h.attributes.modifyAttributes (n := n) fun a ha => ha.erase name
  refine ⟨fun he => hcoherent he, fun {m v} hm hv => ?_,
    fun v => t.owners_modifyAttributes n _ v ▸ h.nodup v⟩
  rw [carriesId, h.attributes.attribute?_erase, decide_eq_true_iff] at hm
  rw [owners_modifyAttributes]
  split_ifs at hm
  exact h.owned (decide_eq_true hm) hv

end Tracks

end Tree

/-! ## Tracked changes -/

theorem Change.tracks_apply {t : Tree} (h : t.Tracks) {change : Change} (hc : change.Tracked) :
    (change.apply t).Tracks := by
  cases change with
  | createElement tag => exact h.push fun e he => by rw [← Option.some.inj he]; rfl
  | createText data => exact h.push fun e he => nomatch he
  | createComment data => exact h.push fun e he => nomatch he
  | createDoctype name => exact h.push fun e he => nomatch he
  | insert parent child before =>
    rw [apply, Tree.insert]
    cases t.insertionFault? parent child before with
    | some e => exact h
    | none =>
      by_cases hb : before = some child
      · simp only [if_pos hb]
        exact h
      · simp only [if_neg hb]
        exact h.congr (.place (.refl t) parent child before)
  | remove parent child =>
    rw [apply, Tree.remove]
    cases t.removalFault? parent child with
    | some e => exact h
    | none => exact h.congr (.detach (.refl t) child)
  | setAttribute n name value =>
    rw [apply, Tree.setAttribute]
    cases t.attributeFault? n with
    | some e => exact h
    | none => exact h.withAttribute n name value
  | removeAttribute n name =>
    rw [apply, Tree.removeAttribute]
    cases t.attributeFault? n with
    | some e => exact h
    | none => exact h.eraseAttribute n name
  | writeAttribute n name value => exact hc.elim
  | eraseAttribute n name => exact hc.elim

/-- **The record is complete in every tree that comes of tracked changes.** -/
theorem Tree.tracks_after (changes : List Change) (hc : ∀ c ∈ changes, c.Tracked) :
    (after changes).Tracks := by
  induction changes using List.reverseRecOn with
  | nil => exact tracks_empty
  | append_singleton changes change ih =>
    rw [List.forall_mem_append, List.forall_mem_singleton] at hc
    rw [after_concat]
    exact change.tracks_apply (ih hc.1) hc.2

/-! ## What the record says -/

namespace Tree

variable {t : Tree} {n : NodeId} {v : String}

theorem attributeFault?_eq_none :
    t.attributeFault? n = none ↔ t.contains n = true ∧ t.isElement n = true := by
  unfold attributeFault?
  split_ifs <;> simp_all

theorem setAttribute_eq_ok {name value : String} {t' : Tree} :
    t.setAttribute n name value = .ok t' ↔
      (t.contains n = true ∧ t.isElement n = true) ∧ t.withAttribute n name value = t' := by
  rw [setAttribute, ← attributeFault?_eq_none]
  cases t.attributeFault? n <;> simp

theorem soleOwner?_eq_some_iff (hmem : ∀ m, m ∈ t.owners v ↔ t.carriesId m v = true)
    (hnodup : (t.owners v).Nodup) :
    t.soleOwner? v = some n ↔ ∀ m, t.carriesId m v = true ↔ m = n := by
  rw [soleOwner?_eq_some, ← List.perm_singleton,
    List.perm_ext_iff_of_nodup hnodup (List.nodup_singleton n)]
  simp only [hmem, List.mem_singleton]

open Classical in
/-- **What is recorded for a value**: each element that carries it, once. -/
theorem owners_after (changes : List Change) (hc : ∀ c ∈ changes, c.Tracked) (hv : v ≠ "") :
    let t := after changes
    (∀ n, t.carriesId n v = true → n ∈ t.owners v) ∧ (t.owners v).Nodup ∧
    (∀ n m, t.soleOwner? v = some n → t.carriesId m v = true → m = n) ∧
    ∀ n t', t.setAttribute n "id" v = .ok t' →
      (∀ m, m ∈ t'.owners v ↔ t'.carriesId m v = true) ∧ (t'.owners v).Nodup ∧
      t'.soleOwner? v = if ∀ m, t'.carriesId m v = true ↔ m = n then some n else none := by
  intro t
  have ht : t.Tracks := tracks_after changes hc
  refine ⟨fun n hn => ht.owned hn hv, ht.nodup v, fun n m => ht.eq_of_soleOwner hv, ?_⟩
  intro n t' hset
  obtain ⟨⟨-, he⟩, rfl⟩ := setAttribute_eq_ok.mp hset
  have hmem := fun m => ht.mem_owners_withAttribute (m := m) he hv
  have hnodup := (ht.withAttribute n "id" v).nodup v
  refine ⟨hmem, hnodup, ?_⟩
  split_ifs with hsole
  · exact (soleOwner?_eq_some_iff hmem hnodup).mpr hsole
  -- no other node can be the only one, since `n` carries the value
  · refine Option.eq_none_iff_forall_ne_some.mpr fun k hk => hsole ?_
    have hk' := (soleOwner?_eq_some_iff hmem hnodup).mp hk
    obtain rfl : n = k := (hk' n).mp (ht.carriesId_withAttribute he v)
    exact hk'

/-- An element that has changed its id stays recorded until the id is given again. -/
theorem owners_after_changed_id :
    let changes := [.createElement "div", .createElement "p", .setAttribute (.slot 1) "id" "x",
      .setAttribute (.slot 2) "id" "x", .setAttribute (.slot 1) "id" "y"]
    let t := after changes
    .slot 1 ∈ t.owners "x" ∧
      ∃ t', t.setAttribute (.slot 2) "id" "x" = .ok t' ∧ t'.soleOwner? "x" = some (.slot 2) := by
  intro changes t
  have hc : ∀ c ∈ changes, c.Tracked := by simp [changes, Change.Tracked]
  let t₀ := after [.createElement "div", .createElement "p"]
  let t₁ := t₀.withAttribute (.slot 1) "id" "x"
  let t₂ := t₁.withAttribute (.slot 2) "id" "x"
  have ht : t = t₂.withAttribute (.slot 1) "id" "y" := rfl
  have h₀ : t₀.Tracks := tracks_after _ (by simp [Change.Tracked])
  have h₁ : t₁.Tracks := h₀.withAttribute _ _ _
  have h₂ : t₂.Tracks := h₁.withAttribute _ _ _
  have h : t.Tracks := tracks_after changes hc
  have hnobody : ∀ m, t₀.carriesId m "x" = false := by
    refine fun m => Bool.eq_false_iff.mpr fun hm => ?_
    have hnone : t₀.owners "x" = [] := Std.HashMap.getD_of_isEmpty (by decide)
    exact absurd (hnone ▸ h₀.owned hm (by decide)) List.not_mem_nil
  have hcarries : ∀ m, t₂.carriesId m "x" = true ↔ m = .slot 2 ∨ m = .slot 1 := by
    intro m
    rw [h₁.carriesId_withAttribute_iff, h₀.carriesId_withAttribute_iff, hnobody]
    have he : t₁.isElement (.slot 2) = true ∧ t₀.isElement (.slot 1) = true := by decide
    rw [he.1, he.2]
    simp [or_iff_not_imp_left]
  obtain ⟨-, -, -, hset⟩ := owners_after changes hc (v := "x") (by decide)
  have hok : t.setAttribute (.slot 2) "id" "x" = .ok (t.withAttribute (.slot 2) "id" "x") :=
    setAttribute_eq_ok.mpr ⟨by decide, rfl⟩
  refine ⟨?_, _, hok, (hset _ _ hok).2.2.trans (if_pos fun m => ?_)⟩
  -- the record of a value is gone through only when that value is given
  · rw [ht, owners_withAttribute_of_ne (by decide)]
    exact h₂.owned ((hcarries _).mpr (.inr rfl)) (by decide)
  · have he : t.isElement (.slot 2) = true ∧ t₂.isElement (.slot 1) = true := by decide
    rw [h.carriesId_withAttribute_iff, he.1, ht, h₂.carriesId_withAttribute_iff, he.2, hcarries]
    grind

end Tree

end MarkupQuery
