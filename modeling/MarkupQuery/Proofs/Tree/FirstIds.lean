import MarkupQuery.Proofs.Tree.Append
import MarkupQuery.Proofs.Tree.Owners
import Mathlib.Data.List.Find

/-!
# The first element of an id

The index of ids keeps the element that took a value first, as long as this element is attached and
has the value. While attributes are given to the last node only, and all nodes are attached, the
index leads to the first of the elements that carry a value.

* `filter_eq_find?_of_lost`, `filter_eq_find?_of_taken`: the first element with a property, when the
  last one loses or takes it;
* `Tree.indexedElement?_recordId`: what the index says after a value is recorded;
* `Tree.IndexesFirst`: the index leads to the first element, with **`IndexesFirst.append`** and
  **`IndexesFirst.withAttribute`**;
* `WellLinked.indexedElement?_withAttribute`, `Tree.owners_withAttribute`, `Tree.IsRecorded`: what
  both tables say after an attribute is given.
-/

namespace MarkupQuery

/-! ## The first of a list -/

section First

variable {α : Type} {older : List α} {a : α} {p p' : α → Bool} {x : Option α}

theorem find?_older [DecidableEq α] (ha : a ∉ older) (hx : x.filter p = (older ++ [a]).find? p) :
    older.find? p = x.filter fun b => p b && b ≠ a := by
  rw [List.find?_append] at hx
  cases hf : older.find? p with
  | some b =>
    rw [hf, Option.some_or, Option.filter_eq_some_iff] at hx
    have hne : b ≠ a := fun e => ha (e ▸ List.mem_of_find?_eq_some hf)
    rw [hx.1, Option.filter_some, if_pos (by simp [hx.2, hne])]
  | none =>
    rw [hf, Option.none_or] at hx
    refine (Option.filter_eq_none_iff.mpr fun b hb hp => ?_).symm
    simp only [Bool.and_eq_true, decide_eq_true_eq] at hp
    rw [hb, Option.filter_some, if_pos hp.1] at hx
    exact hp.2 (List.mem_singleton.mp (List.mem_of_find?_eq_some hx.symm))

theorem find?_congr_older (ha : a ∉ older) (hp : ∀ b ≠ a, p' b = p b) :
    older.find? p' = older.find? p :=
  List.find?_congr fun b hb => hp b fun e => ha (e ▸ hb)

theorem filter_eq_find?_of_lost (ha : a ∉ older) (hx : x.filter p = (older ++ [a]).find? p)
    (hp : ∀ b ≠ a, p' b = p b) (hp' : p' a = false) : x.filter p' = (older ++ [a]).find? p' := by
  classical
  rw [List.find?_append, find?_congr_older ha hp, find?_older ha hx, List.find?_singleton, hp']
  cases x with
  | none => rfl
  | some b =>
    by_cases hb : b = a
    · simp [hb, hp', Option.filter_some]
    · simp [hb, hp b hb, Option.filter_some]

theorem filter_eq_find?_of_taken (ha : a ∉ older) (hx : x.filter p = (older ++ [a]).find? p)
    (hp : ∀ b ≠ a, p' b = p b) (hp' : p' a = true) :
    (if x.any p' then x else some a).filter p' = (older ++ [a]).find? p' := by
  classical
  rw [List.find?_append, find?_congr_older ha hp, find?_older ha hx, List.find?_singleton, hp']
  cases x with
  | none => simp [hp']
  | some b =>
    by_cases hb : b = a
    · simp [hb, hp', Option.filter_some]
    · cases hpb : p b <;> simp [hb, hp b hb, hpb, hp', Option.filter_some]

end First

namespace Tree

variable {t t' : Tree} {kids : NodeId → List NodeId} {p n m : NodeId} {content : Content}
  {name value v w : String}

/-! ## The index -/

theorem indexedElement?_recordId (hconn : ∀ m, t.carriesId m v = true → t.isConnected m = true)
    (n : NodeId) (w : String) : (t.recordId n v).indexedElement? w =
      if w = v then
        if (t.indexedElement? v).any (t.carriesId · v) then t.indexedElement? v else some n
      else t.indexedElement? w := by
  have hstale : t.isStale v = !(t.indexedElement? v).any (t.carriesId · v) := by
    rw [isStale, indexedElement?]
    cases t.idIndex[v]? with
    | none => rfl
    | some m =>
      cases hm : t.carriesId m v with
      | true => simp [hm, hconn m hm]
      | false => simp [hm]
  simp only [indexedElement?, recordId] at hstale ⊢
  rw [hstale]
  by_cases hw : w = v
  · subst hw
    rw [if_pos rfl]
    split_ifs <;> simp_all
  · rw [if_neg hw]
    split_ifs
    · rw [Std.HashMap.getElem?_insert, if_neg fun e => hw (beq_iff_eq.mp e).symm]
    · rfl

/-- The index leads to the first element that carries a value, if there is one. It knows nothing of
the empty value. -/
structure IndexesFirst (t : Tree) : Prop where
  empty : t.indexedElement? "" = none
  first : ∀ v ≠ "", (t.indexedElement? v).filter (t.carriesId · v) = t.ids.find? (t.carriesId · v)

theorem indexesFirst_empty : Tree.empty.IndexesFirst := by
  have hindex : ∀ v, Tree.empty.indexedElement? v = none := fun v => by
    simp [indexedElement?, empty]
  refine ⟨hindex "", fun v _ => ?_⟩
  rw [hindex]
  rfl

/-! ## A new node -/

theorem Appends.carriesId (ha : t.Appends p content t')
    (hc : ∀ e ∈ content.element?, e.attributes = .empty) (n : NodeId) (v : String) :
    t'.carriesId n v = t.carriesId n v := by
  rw [Tree.carriesId, attribute?, ha.element?, Tree.carriesId, attribute?]
  split_ifs with hn
  · have hold : t.element? n = none := by rw [hn, Tree.element?, node?_slot_size]; rfl
    rw [hold]
    cases he : content.element? with
    | none => rfl
    | some e => simp [hc e he, Attributes.get?, Attributes.empty]
  · rfl

/-- **A new node without attributes is not the first one to carry a value.** -/
theorem IndexesFirst.append (h : t.IndexesFirst) (ha : t.Appends p content t')
    (hindex : t'.idIndex = t.idIndex) (hc : ∀ e ∈ content.element?, e.attributes = .empty) :
    t'.IndexesFirst := by
  have hindexed : t'.indexedElement? = t.indexedElement? :=
    funext fun v => by rw [indexedElement?, hindex, indexedElement?]
  have hcarries := fun v => funext fun n => ha.carriesId hc n v
  have hnew : ∀ v, t.carriesId (.slot t.size) v = false := fun v => by
    rw [Tree.carriesId, attribute?, Tree.element?, node?_slot_size]
    rfl
  refine ⟨hindexed ▸ h.empty, fun v hv => ?_⟩
  rw [hindexed, hcarries, ha.ids, h.first v hv, List.find?_append, List.find?_singleton, hnew]
  simp

/-! ## An attribute of the last node -/

theorem ids_withAttribute (t : Tree) (n : NodeId) (name value : String) :
    (t.withAttribute n name value).ids = t.ids := by
  have hsize : (t.modifyAttributes n fun a => (a.set name value).2).size = t.size := by
    cases n with
    | null => rfl
    | slot i => exact Array.size_modify
  rw [Tree.withAttribute, ids, ids, ← hsize]
  split_ifs <;> rfl

theorem WellLinked.isConnected_modifyAttributes (h : t.WellLinked kids) (n m : NodeId)
    (f : Attributes → Attributes) : (t.modifyAttributes n f).isConnected m = t.isConnected m := by
  have hchild : (t.modifyAttributes n f).HasChild = t.HasChild := by
    funext q c
    rw [HasChild, h.children_modifyAttributes, HasChild]
  rw [Bool.eq_iff_iff, isConnected, isConnected, (h.modifyAttributes n f).isInclusiveAncestor_iff,
    h.isInclusiveAncestor_iff, hchild]

theorem contains_withAttribute (t : Tree) (n : NodeId) (name value : String) (m : NodeId) :
    (t.withAttribute n name value).contains m = t.contains m := by
  rw [Tree.withAttribute, ← contains_modifyAttributes t n _ m]
  split_ifs <;> rfl

theorem isElement_withAttribute (t : Tree) (n : NodeId) (name value : String) (m : NodeId) :
    (t.withAttribute n name value).isElement m = t.isElement m := by
  rw [Tree.withAttribute, ← isElement_modifyAttributes t n m]
  split_ifs <;> rfl

theorem owners_withAttribute (t : Tree) (n : NodeId) (name value w : String) :
    (t.withAttribute n name value).owners w =
      if (name = "id" ∧ value ≠ "") ∧ w = value then
        let kept := (t.owners value).filter ((t.withAttribute n name value).carriesId · value)
        if kept.contains n then kept else kept ++ [n]
      else t.owners w := by
  have howners := t.owners_modifyAttributes n fun a => (a.set name value).2
  rw [Tree.withAttribute]
  by_cases hid : name = "id" ∧ value ≠ ""
  · rw [if_pos (by simpa using hid), owners_recordId, howners, ← howners value]
    exact if_congr (by simp [hid]) rfl rfl
  · rw [if_neg (by simpa using hid), if_neg fun hw => hid hw.1, howners]

theorem WellLinked.indexedElement?_withAttribute (h : t.WellLinked kids)
    (hconn : ∀ m, t.isElement m = true → t.isConnected m = true) (n : NodeId)
    (name value w : String) :
    (t.withAttribute n name value).indexedElement? w =
      if (name = "id" ∧ value ≠ "") ∧ w = value then
        if (t.indexedElement? value).any ((t.withAttribute n name value).carriesId · value) then
          t.indexedElement? value
        else some n
      else t.indexedElement? w := by
  have hindex : ∀ u, (t.modifyAttributes n fun a => (a.set name value).2).indexedElement? u =
      t.indexedElement? u := fun u => by
    rw [indexedElement?, Tree.modifyAttributes, (tables_modify t n _).1, indexedElement?]
  rw [Tree.withAttribute]
  by_cases hid : name = "id" ∧ value ≠ ""
  · rw [if_pos (by simpa using hid), indexedElement?_recordId, hindex, hindex]
    · exact if_congr (by simp [hid]) rfl rfl
    · intro m hm
      rw [h.isConnected_modifyAttributes]
      exact hconn m (isElement_modifyAttributes t n m _ ▸ isElement_of_carriesId hm)
  · rw [if_neg (by simpa using hid), if_neg fun hw => hid hw.1, hindex]

/-- The node is recorded for a value. -/
def IsRecorded (t : Tree) (n : NodeId) : Prop :=
  ∃ v, n ∈ t.indexedElement? v ∨ n ∈ t.owners v

theorem WellLinked.isRecorded_withAttribute (h : t.WellLinked kids)
    (hconn : ∀ m, t.isElement m = true → t.isConnected m = true)
    (hm : (t.withAttribute n name value).IsRecorded m) : m = n ∨ t.IsRecorded m := by
  obtain ⟨v, hm⟩ := hm
  rw [h.indexedElement?_withAttribute hconn, owners_withAttribute] at hm
  dsimp only at hm
  rcases hm with hm | hm
  · split_ifs at hm
    · exact .inr ⟨_, .inl hm⟩
    · exact .inl (Option.some.inj hm).symm
    · exact .inr ⟨_, .inl hm⟩
  · split_ifs at hm
    · exact .inr ⟨_, .inr (List.mem_of_mem_filter hm)⟩
    · rcases List.mem_append.mp hm with hm | hm
      · exact .inr ⟨_, .inr (List.mem_of_mem_filter hm)⟩
      · exact .inl (List.mem_singleton.mp hm)
    · exact .inr ⟨_, .inr hm⟩

/-- **An attribute of the last node leaves the first elements in the index.** -/
theorem IndexesFirst.withAttribute (h : t.IndexesFirst) (hw : t.WellLinked kids) (ht : t.Tracks)
    (hconn : ∀ m, t.isElement m = true → t.isConnected m = true) {older : List NodeId}
    (hids : t.ids = older ++ [n]) (hn : n ∉ older) (he : t.isElement n = true)
    (name value : String) : (t.withAttribute n name value).IndexesFirst := by
  have hindexed := hw.indexedElement?_withAttribute hconn n name value
  have hset := ht.attributes.attribute?_withAttribute n name value
  have hother : ∀ v, ∀ m ≠ n,
      (t.withAttribute n name value).carriesId m v = t.carriesId m v := fun v m hm => by
    rw [carriesId, hset, if_neg fun hm' => hm hm'.1, carriesId]
  refine ⟨?_, fun v hv => ?_⟩
  · rw [hindexed, if_neg fun hw => hw.1.2 hw.2.symm, h.empty]
  have hfirst := h.first v hv
  rw [hindexed, (t.ids_withAttribute n name value).trans hids]
  rw [hids] at hfirst
  by_cases hname : name = "id"
  · subst hname
    have hlast : (t.withAttribute n "id" value).carriesId n v = decide (value = v) := by
      rw [carriesId, hset, if_pos ⟨rfl, he, rfl⟩]
      exact decide_eq_decide.mpr Option.some_inj
    -- the last node takes one value and may lose another
    by_cases hval : value = v
    · subst hval
      rw [if_pos ⟨⟨rfl, hv⟩, rfl⟩]
      exact filter_eq_find?_of_taken hn hfirst (hother value) (hlast.trans (decide_eq_true rfl))
    · rw [if_neg fun hw => hval hw.2.symm]
      exact filter_eq_find?_of_lost hn hfirst (hother v) (hlast.trans (decide_eq_false hval))
  · have hsame : (t.withAttribute n name value).carriesId = t.carriesId := by
      funext m w
      rw [carriesId, hset, if_neg fun hw => hname hw.2.2.symm, carriesId]
    rw [if_neg fun hw => hname hw.1.1, hsame]
    exact hfirst

end Tree

end MarkupQuery
