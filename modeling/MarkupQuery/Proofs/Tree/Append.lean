import MarkupQuery.Markup.Load
import MarkupQuery.Proofs.Tree.Change

/-!
# New nodes

A new node that is put under a node of the tree comes behind the children there are. Nothing else
changes: neither the other lists of children nor what the other nodes hold.

* `Tree.contents`: what the nodes hold, in order of creation;
* `WellLinked.children_withAttribute` and others: changes that leave all lists of children alone;
* `Tree.Appends`: the second tree has one more node, behind the children of another;
* **`WellLinked.appendNew`**: a new node is never refused;
* `Appends.withAttribute`: an attribute changes the last node only.
-/

namespace MarkupQuery.Tree

open Function Relation

variable {t t' t'' : Tree} {kids : NodeId → List NodeId} {p n m : NodeId} {content : Content}
  {e : Element} {name value : String} {o : LoadOptions}

/-! ## Contents -/

theorem getElem?_concat_of_ne {α : Type} {l : List α} {i : ℕ} (hi : i ≠ l.length) (a : α) :
    (l ++ [a])[i]? = l[i]? := by
  rw [List.getElem?_append]
  split_ifs with hlt
  · rfl
  · rw [List.getElem?_eq_none (by simp; omega), List.getElem?_eq_none (by omega)]

/-- What the nodes hold, in order of creation. -/
def contents (t : Tree) : List Content := t.nodes.toList.map (·.content)

theorem content?_slot (t : Tree) (i : ℕ) : t.content? (.slot i) = t.contents[i]? := by
  rw [content?, contents, List.getElem?_map, Array.getElem?_toList]
  rfl

theorem length_contents (t : Tree) : t.contents.length = t.size := by
  rw [contents, List.length_map, Array.length_toList, size]

theorem contents_congr (hc : ∀ n, t'.content? n = t.content? n) : t'.contents = t.contents :=
  List.ext_getElem? fun i => by rw [← content?_slot, ← content?_slot, hc]

theorem contents_push (t : Tree) (content : Content) :
    (t.push content).2.contents = t.contents ++ [content] := by
  simp [push, contents]

theorem contains_slot {i : ℕ} : t.contains (.slot i) = true ↔ i < t.size := by
  rw [contains_iff]
  exact ⟨fun ⟨j, hj, e⟩ => by cases e; exact hj, fun hi => ⟨i, hi, rfl⟩⟩

theorem contains_slot_size (t : Tree) : t.contains (.slot t.size) = false :=
  Bool.eq_false_iff.mpr fun hc => lt_irrefl _ (contains_slot.mp hc)

theorem ne_slot_size (hn : t.contains n = true) : n ≠ .slot t.size := by
  rintro rfl
  exact Bool.false_ne_true (t.contains_slot_size.symm.trans hn)

theorem isElement_eq_content? (t : Tree) (n : NodeId) :
    t.isElement n = ((t.content? n).bind Content.element?).isSome := by
  rw [isElement, element?_eq_content?]

theorem contains_of_isElement (he : t.isElement n = true) : t.contains n = true := by
  rw [isElement_eq_content?] at he
  rw [contains_eq_isSome_content?]
  exact Option.isSome_of_isSome_bind he

/-! ## Links -/

namespace WellLinked

variable (h : t.WellLinked kids)

include h

theorem withChildren : t.WellLinked t.children := by
  rw [funext h.children_eq]
  exact h

theorem children_modifyAttributes (n : NodeId) (f : Attributes → Attributes) :
    (t.modifyAttributes n f).children = t.children :=
  funext fun q => ((h.modifyAttributes n f).children_eq q).trans (h.children_eq q).symm

theorem children_withAttribute (n : NodeId) (name value : String) :
    (t.withAttribute n name value).children = t.children :=
  funext fun q => ((h.withAttribute n name value).children_eq q).trans (h.children_eq q).symm

theorem children_push (content : Content) : (t.push content).2.children = t.children :=
  funext fun q => ((h.push content).children_eq q).trans (h.children_eq q).symm

end WellLinked

/-! ## One more node -/

/-- The second tree has one more node of the given content, behind the children of `p`. -/
structure Appends (t : Tree) (p : NodeId) (content : Content) (t' : Tree) : Prop where
  contents : t'.contents = t.contents ++ [content]
  children : ∀ q, t'.children q = if q = p then t.children p ++ [.slot t.size] else t.children q

theorem WellLinked.insertionFault?_push (h : t.WellLinked kids) (hp : t.contains p = true)
    (content : Content) :
    (t.push content).2.insertionFault? p (.slot t.size) none = none := by
  have hold : ∀ {n}, t.contains n = true → (t.push content).2.contains n = true := by
    intro n hn
    rw [contains, node?_push]
    split_ifs
    · rfl
    · exact hn
  refine insertionFault?_eq_none.mpr ⟨hold hp, ?_, (ne_slot_size h.contains_root).symm, ?_, by simp⟩
  · rw [contains, node?_push, if_pos rfl]
    rfl
  · refine Bool.eq_false_iff.mpr fun hloop => ?_
    rcases (((h.push content).wouldLoop_iff (hold hp)).mp hloop).cases_head with e | ⟨x, hx, -⟩
    · exact ne_slot_size hp e.symm
    · rw [HasChild, h.children_push, h.children_eq_nil t.contains_slot_size] at hx
      exact List.not_mem_nil hx

/-- **A new node is taken by every node of the tree**, as its last child. -/
theorem WellLinked.appendNew (h : t.WellLinked kids) (hp : t.contains p = true)
    (content : Content) :
    ∃ t', t.appendNew p content = .ok (.slot t.size, t') ∧ (∃ kids, t'.WellLinked kids) ∧
      t.Appends p content t' ∧ (t.push content).2.SameData t' := by
  have hf := h.insertionFault?_push hp content
  have hdata := (SameData.refl (t.push content).2).place p (.slot t.size) none
  have hplace := (h.push content).withChildren.place hf (by simp)
  have herase : ∀ q, (t.children q).erase (.slot t.size) = t.children q := fun q =>
    List.erase_of_not_mem fun hm => ne_slot_size (h.contains_of_below (.single hm)).2 rfl
  refine ⟨(t.push content).2.place p (.slot t.size) none, ?_, ⟨_, hplace⟩, ⟨?_, fun q => ?_⟩, hdata⟩
  · change ((t.push content).2.insert p (.slot t.size) none).map _ = _
    rw [Tree.insert, hf]
    rfl
  · rw [contents_congr hdata.content?, contents_push]
  · rw [hplace.children_eq, h.children_push]
    by_cases hq : q = p
    · rw [hq, update_self, if_pos rfl, herase, putBefore]
    · rw [update_of_ne hq, if_neg hq, herase]

namespace Appends

variable (ha : t.Appends p content t')

include ha

theorem size : t'.size = t.size + 1 := by
  rw [← length_contents, ha.contents, List.length_append, length_contents, List.length_singleton]

theorem ids : t'.ids = t.ids ++ [.slot t.size] := by
  rw [Tree.ids, ha.size, List.range_succ, List.map_append, List.map_singleton, Tree.ids]

theorem content? (n : NodeId) :
    t'.content? n = if n = .slot t.size then some content else t.content? n := by
  cases n with
  | null => rfl
  | slot i =>
    rw [content?_slot, content?_slot, ha.contents, ← length_contents]
    by_cases hi : i = t.contents.length
    · rw [if_pos (congrArg _ hi), hi, List.getElem?_concat_length]
    · rw [if_neg fun e => hi (NodeId.slot.inj e), getElem?_concat_of_ne hi]

theorem element? (n : NodeId) :
    t'.element? n = if n = .slot t.size then content.element? else t.element? n := by
  rw [element?_eq_content?, element?_eq_content?, ha.content?]
  split_ifs <;> rfl

theorem contains_iff : t'.contains n = true ↔ n = .slot t.size ∨ t.contains n = true := by
  rw [contains_eq_isSome_content?, contains_eq_isSome_content?, ha.content?]
  split_ifs with hn <;> simp [hn]

theorem isElement (hn : t.isElement n = true) : t'.isElement n = true := by
  rw [Tree.isElement, ha.element?, if_neg (ne_slot_size (contains_of_isElement hn)),
    ← Tree.isElement, hn]

theorem hasChild_iff : t'.HasChild m n ↔ t.HasChild m n ∨ m = p ∧ n = .slot t.size := by
  rw [HasChild, ha.children, HasChild]
  split_ifs with hm
  · rw [hm, List.mem_append, List.mem_singleton]
    simp
  · simp [hm]

end Appends

theorem Appends.isElement_new (ha : t.Appends p (.element e) t') :
    t'.isElement (.slot t.size) = true := by
  rw [Tree.isElement, ha.element?, if_pos rfl]
  rfl

theorem Appends.withAttribute (ha : t.Appends p (.element e) t') (h : t'.WellLinked kids)
    (name value : String) :
    t.Appends p (.element { e with attributes := (e.attributes.set name value).2 })
      (t'.withAttribute (.slot t.size) name value) := by
  refine ⟨?_, fun q => by rw [h.children_withAttribute, ha.children]⟩
  have hnodes : (t'.withAttribute (.slot t.size) name value).contents =
      (t'.modifyAttributes (.slot t.size) fun a => (a.set name value).2).contents := by
    rw [Tree.withAttribute]
    split_ifs <;> rfl
  rw [hnodes]
  refine List.ext_getElem? fun i => ?_
  rw [← content?_slot, content?_modifyAttributes, ha.content?, ← length_contents]
  by_cases hi : i = t.contents.length
  · rw [if_pos (congrArg _ hi), if_pos (congrArg _ hi), hi, List.getElem?_concat_length]
    rfl
  · have hne : NodeId.slot i ≠ .slot t.contents.length := fun e => hi (NodeId.slot.inj e)
    rw [if_neg hne, if_neg hne, content?_slot, getElem?_concat_of_ne hi]

end MarkupQuery.Tree
