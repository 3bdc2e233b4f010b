import MarkupQuery.Proofs.Attributes
import MarkupQuery.Proofs.Tree.Change

/-!
# Attributes of a tree

The attributes of every element can be looked up, whatever has been done to the tree. An element has
attributes exactly when some name is found.

* `Tree.element?_push`, `Tree.element?_modifyAttributes`: the elements after a change;
* `Tree.Coherent`: the attributes can be looked up, with one lemma for each kind of change;
* `Coherent.attribute?_set`, `Coherent.attribute?_erase`: what is found afterwards;
* **`Tree.coherent_after`**: so it is in every tree that comes of changes;
* **`Tree.Coherent.attributeCount_pos_iff`**: which elements have attributes.
-/

namespace MarkupQuery

namespace Tree

variable {t t' : Tree} {n : NodeId}

/-! ## Elements after a change -/

theorem element?_modifyAttributes (t : Tree) (n m : NodeId) (f : Attributes → Attributes) :
    (t.modifyAttributes n f).element? m =
      if m = n then (t.element? m).map fun e => { e with attributes := f e.attributes }
      else t.element? m := by
  rw [element?_eq_content?, content?_modifyAttributes, element?_eq_content?]
  split_ifs
  · cases t.content? m with
    | none => rfl
    | some c => cases c <;> rfl
  · rfl

theorem isElement_modifyAttributes (t : Tree) (n m : NodeId) (f : Attributes → Attributes) :
    (t.modifyAttributes n f).isElement m = t.isElement m := by
  rw [isElement, element?_modifyAttributes, isElement]
  split_ifs
  · exact Option.isSome_map
  · rfl

theorem element?_push (t : Tree) (content : Content) (n : NodeId) :
    (t.push content).2.element? n =
      if n = .slot t.size then content.element? else t.element? n := by
  rw [element?, node?_push, element?]
  split_ifs <;> rfl

theorem element?_empty (n : NodeId) : Tree.empty.element? n = none := by
  match n with
  | .null | .slot 0 => rfl
  | .slot (i + 1) => simp [element?, node?, empty]

/-! ## Attributes that can be looked up -/

/-- The attributes of every element can be looked up. -/
def Coherent (t : Tree) : Prop := ∀ ⦃n e⦄, t.element? n = some e → e.attributes.Coherent

theorem coherent_empty : Tree.empty.Coherent := by
  intro n e he
  rw [element?_empty] at he
  cases he

namespace Coherent

variable (h : t.Coherent)

include h

theorem congr (hd : t.SameData t') : t'.Coherent := fun n _ he =>
  h ((hd.element? n).symm.trans he)

theorem push {content : Content} (hc : ∀ e ∈ content.element?, e.attributes = .empty) :
    (t.push content).2.Coherent := by
  intro m e he
  rw [element?_push] at he
  split_ifs at he
  · rw [hc e he]
    exact Attributes.coherent_empty
  · exact h he

theorem modifyAttributes {f : Attributes → Attributes}
    (hf : ∀ a : Attributes, a.Coherent → (f a).Coherent) : (t.modifyAttributes n f).Coherent := by
  intro m e he
  rw [element?_modifyAttributes] at he
  split_ifs at he
  · obtain ⟨e', he', rfl⟩ := Option.map_eq_some_iff.mp he
    exact hf _ (h he')
  · exact h he

theorem withAttribute (name value : String) : (t.withAttribute n name value).Coherent := by
  have hset := h.modifyAttributes (n := n) fun a ha => ha.set name value
  rw [Tree.withAttribute]
  split_ifs
  -- the tables of ids hold no attributes
  · exact fun m e he => hset he
  · exact hset

/-! ## What is found after a change -/

theorem attribute?_set (n : NodeId) (name value : String) (m : NodeId) (k : String) :
    (t.modifyAttributes n fun a => (a.set name value).2).attribute? m k =
      if m = n ∧ t.isElement n = true ∧ k = name then some value else t.attribute? m k := by
  rw [attribute?, element?_modifyAttributes, attribute?]
  by_cases hm : m = n
  · subst hm
    rw [if_pos rfl, isElement]
    cases he : t.element? m with
    | none => simp
    | some e =>
      rw [Option.map_some, Option.bind_some, (h he).get?_set]
      simp
  · rw [if_neg hm, if_neg fun hn => hm hn.1]

theorem attribute?_erase (n : NodeId) (name : String) (m : NodeId) (k : String) :
    (t.modifyAttributes n fun a => (a.erase name).2).attribute? m k =
      if m = n ∧ k = name then none else t.attribute? m k := by
  rw [attribute?, element?_modifyAttributes, attribute?]
  by_cases hm : m = n
  · subst hm
    rw [if_pos rfl]
    cases he : t.element? m with
    | none => simp
    | some e =>
      rw [Option.map_some, Option.bind_some, (h he).get?_erase]
      simp
  · rw [if_neg hm, if_neg fun hn => hm hn.1]

theorem attribute?_withAttribute (n : NodeId) (name value : String) (m : NodeId) (k : String) :
    (t.withAttribute n name value).attribute? m k =
      if m = n ∧ t.isElement n = true ∧ k = name then some value else t.attribute? m k := by
  rw [← h.attribute?_set, Tree.withAttribute]
  split_ifs <;> rfl

end Coherent

end Tree

theorem Change.coherent_apply {t : Tree} (h : t.Coherent) (change : Change) :
    (change.apply t).Coherent := by
  cases change with
  | createElement tag => exact h.push fun e he => by rw [← Option.some.inj he]; rfl
  | createText data => exact h.push fun e he => nomatch he
  | createComment data => exact h.push fun e he => nomatch he
  | createDoctype name => exact h.push fun e he => nomatch he
  | insert parent child before =>
    rw [apply, Tree.insert]
    cases t.insertionFault? parent child before with
    | some e => exact h
    | none =>
      by_cases hb : before = some child
      · simp only [if_pos hb]
        exact h
      · simp only [if_neg hb]
        exact h.congr (.place (.refl t) parent child before)
  | remove parent child =>
    rw [apply, Tree.remove]
    cases t.removalFault? parent child with
    | some e => exact h
    | none => exact h.congr (.detach (.refl t) child)
  | setAttribute n name value =>
    rw [apply, Tree.setAttribute]
    cases t.attributeFault? n with
    | some e => exact h
    | none => exact h.withAttribute name value
  | removeAttribute n name =>
    have herase := h.modifyAttributes (n := n) fun a ha => ha.erase name
    rw [apply, Tree.removeAttribute]
    cases t.attributeFault? n with
    | some e => exact h
    | none => exact herase
  | writeAttribute n name value => exact h.modifyAttributes fun a ha => ha.set name value
  | eraseAttribute n name => exact h.modifyAttributes fun a ha => ha.erase name

namespace Tree

variable {t : Tree} {n : NodeId}

/-- **The attributes of every element can be looked up**, after any changes. -/
theorem coherent_after (changes : List Change) : (after changes).Coherent := by
  induction changes using List.reverseRecOn with
  | nil => exact coherent_empty
  | append_singleton changes change ih =>
    rw [after_concat]
    exact change.coherent_apply ih

/-! ## Elements with attributes -/

theorem attributeCount_pos {name v : String} (ha : t.attribute? n name = some v) :
    0 < t.attributeCount n := by
  rw [attribute?, Option.bind_eq_some_iff] at ha
  obtain ⟨e, he, ha⟩ := ha
  rw [attributeCount, he, Option.map_some, Option.getD_some, Attributes.size, Array.size_pos_iff]
  intro hnil
  rw [Attributes.get?, hnil] at ha
  simp at ha

theorem attribute?_eq_none {name : String} (hn : t.attributeCount n = 0) :
    t.attribute? n name = none :=
  Option.eq_none_iff_forall_ne_some.mpr fun _ hv => (attributeCount_pos hv).ne' hn

theorem Coherent.attributeCount_pos_iff (h : t.Coherent) :
    0 < t.attributeCount n ↔ ∃ name, t.attribute? n name ≠ none := by
  constructor
  · intro hpos
    cases he : t.element? n with
    | none =>
      rw [attributeCount, he] at hpos
      exact absurd hpos (Nat.lt_irrefl 0)
    | some e =>
      rw [attributeCount, he] at hpos
      obtain ⟨name, hname⟩ := (h he).exists_get? hpos
      exact ⟨name, by rwa [attribute?, he]⟩
  · rintro ⟨name, hname⟩
    obtain ⟨v, hv⟩ := Option.ne_none_iff_exists'.mp hname
    exact attributeCount_pos hv

end Tree

end MarkupQuery
