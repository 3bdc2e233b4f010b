import MarkupQuery.Proofs.Query.IdIndex
import MarkupQuery.Proofs.Tree.FirstIds

/-!
# Loading

A tree that is loaded grows at its end: a new node comes last in the array and last among the
children of its parent, and what was there before stays. Therefore the nodes come in document order.

* `Item.forest_induction`, `Item.of_content?`: the items of a forest, and what they bring along;
* `Tree.Extends`: a tree with more nodes, all of them below one of the old ones, with
  `Extends.trans` and `Extends.nest`;
* `Tree.Loading`: what holds of a tree while it is loaded, with **`Loading.addNode`**;
* `Tree.Loads`: what becomes of items that wait, with **`Loading.loads`**;
* **`Tree.loading_addWaiting`**: every forest of items is loaded, in document order.
-/

namespace MarkupQuery

open Relation

/-! ## Items -/

namespace Item

variable {o : LoadOptions} {i : Item} {content : Content}

/-- **Induction over a forest of items.** -/
theorem forest_induction {P : List Item → Prop} (nil : P [])
    (cons : ∀ i items, P i.inner → P items → P (i :: items)) (items : List Item) : P items := by
  induction hk : sizeOf items using Nat.strong_induction_on generalizing items with
  | h k ih =>
    cases items with
    | nil => exact nil
    | cons i items =>
      have hi := i.sizeOf_inner_le
      rw [List.cons.sizeOf_spec] at hk
      exact cons i items (ih _ (by omega) i.inner rfl) (ih _ (by omega) items rfl)

theorem of_content? (hi : i.content? = some content) :
    (∃ tag, content = .element (.ofTag tag)) ∨
      content.element? = none ∧ i.attributes = [] ∧ i.inner = [] := by
  cases i with
  | element tag attributes template children => exact .inl ⟨tag, (Option.some.inj hi).symm⟩
  | instruction => cases hi
  | doctype name => exact .inr ⟨Option.some.inj hi ▸ rfl, rfl, rfl⟩
  | text data => exact .inr ⟨Option.some.inj hi ▸ rfl, rfl, rfl⟩
  | comment data => exact .inr ⟨Option.some.inj hi ▸ rfl, rfl, rfl⟩

theorem inner_eq_nil (hi : i.content?.filter o.keeps = none) : i.inner = [] := by
  cases i with
  | element tag attributes template children => cases hi
  | _ => rfl

end Item

/-- The content with attributes given to it one after the other, if it is an element. -/
def Content.withAttributes (attributes : List Attribute) : Content → Content :=
  mapElement fun e => { e with
    attributes := attributes.foldl (fun m a => (m.set a.name a.value).2) e.attributes }

theorem Content.withAttributes_nil (content : Content) : content.withAttributes [] = content := by
  cases content <;> rfl

theorem Content.fresh_ofTag (tag : String) :
    ∀ e ∈ (Content.element (.ofTag tag)).element?, e.attributes = .empty :=
  fun _ he => Option.some.inj he ▸ rfl

theorem Content.fresh_of_element?_eq_none {content : Content} (h : content.element? = none) :
    ∀ e ∈ content.element?, e.attributes = .empty := by
  rw [h]
  exact fun _ he => nomatch he

namespace Tree

variable {t t' t'' : Tree} {p n : NodeId} {content : Content} {e : Element} {o : LoadOptions}
  {i : Item} {items : List Item}

/-! ## Growth -/

/-- The second tree has more nodes, at the end of the array. They lie below `p`, behind the children
there were, in document order. -/
structure Extends (t : Tree) (p : NodeId) (t' : Tree) : Prop where
  contents : ∃ new, t'.contents = t.contents ++ new
  others : ∀ q, t.contains q = true → q ≠ p → t'.children q = t.children q
  added : ∃ ns vs, t'.children p = t.children p ++ ns ∧ t'.Walk (fun _ => True) ns vs ∧
    t'.ids = t.ids ++ vs

namespace Extends

protected theorem refl (t : Tree) (p : NodeId) : t.Extends p t :=
  ⟨⟨[], (List.append_nil _).symm⟩, fun _ _ _ => rfl, [], [], (List.append_nil _).symm, .nil,
    (List.append_nil _).symm⟩

theorem content? (h : t.Extends p t') (hn : t.contains n = true) :
    t'.content? n = t.content? n := by
  obtain ⟨new, hnew⟩ := h.contents
  obtain ⟨i, hi, rfl⟩ := contains_iff.mp hn
  rw [content?_slot, content?_slot, hnew, List.getElem?_append_left (by rwa [length_contents])]

theorem contains (h : t.Extends p t') (hn : t.contains n = true) : t'.contains n = true := by
  rw [contains_eq_isSome_content?, h.content? hn, ← contains_eq_isSome_content?, hn]

theorem isElement (h : t.Extends p t') (hn : t.isElement n = true) : t'.isElement n = true := by
  rw [isElement_eq_content?, h.content? (contains_of_isElement hn), ← isElement_eq_content?, hn]

theorem trans (h : t.Extends p t') (h' : t'.Extends p t'') (hp : t.contains p = true) :
    t.Extends p t'' := by
  obtain ⟨new, hnew⟩ := h.contents
  obtain ⟨new', hnew'⟩ := h'.contents
  obtain ⟨ns, vs, hns, hw, hvs⟩ := h.added
  obtain ⟨ns', vs', hns', hw', hvs'⟩ := h'.added
  have hold : ∀ n ∈ vs, t'.contains n = true ∧ n ≠ p := by
    intro n hn
    refine ⟨contains_iff_mem_ids.mpr (hvs ▸ List.mem_append_right _ hn), ?_⟩
    rintro rfl
    have hnodup : t'.ids.Nodup := List.nodup_range.map fun _ _ => NodeId.slot.inj
    rw [hvs] at hnodup
    exact List.disjoint_of_nodup_append hnodup (contains_iff_mem_ids.mp hp) hn
  refine ⟨⟨new ++ new', ?_⟩, fun q hq hqp => ?_, ns ++ ns', vs ++ vs', ?_, ?_, ?_⟩
  · rw [hnew', hnew, List.append_assoc]
  · rw [h'.others q (h.contains hq) hqp, h.others q hq hqp]
  · rw [hns', hns, List.append_assoc]
  · exact (hw.congr fun n hn => h'.others n (hold n hn).1 (hold n hn).2).append hw'
  · rw [hvs', hvs, List.append_assoc]

/-- **What grows below a new node grows below its parent.** -/
theorem nest {kids : NodeId → List NodeId} (hw : t.WellLinked kids) (hp : t.contains p = true)
    (ha : t.Appends p content t') (h : t'.Extends (.slot t.size) t'') : t.Extends p t'' := by
  obtain ⟨new, hnew⟩ := h.contents
  obtain ⟨ns, vs, hns, hwalk, hvs⟩ := h.added
  have hold : ∀ {q}, t.contains q = true → t''.children q = t'.children q := fun {q} hq =>
    h.others q (ha.contains_iff.mpr (.inr hq)) (ne_slot_size hq)
  have hchildless : t'.children (.slot t.size) = [] := by
    rw [ha.children, if_neg (ne_slot_size hp).symm, hw.children_eq_nil t.contains_slot_size]
  refine ⟨⟨content :: new, ?_⟩, fun q hq hqp => ?_, [.slot t.size], .slot t.size :: vs, ?_, ?_, ?_⟩
  · rw [hnew, ha.contents, List.append_assoc, List.singleton_append]
  · rw [hold hq, ha.children, if_neg hqp]
  · rw [hold hp, ha.children, if_pos rfl]
  · rw [hchildless, List.nil_append] at hns
    have hw' : t''.Walk (fun _ => True) [.slot t.size] (.slot t.size :: (vs ++ [])) :=
      .enter trivial (hns ▸ hwalk) .nil
    rwa [List.append_nil] at hw'
  · rw [hvs, ha.ids, List.append_assoc, List.singleton_append]

end Extends

/-! ## Nodes of items -/

/-- The tree with attributes given to a node one after the other, where none is refused. -/
def withAttributes (t : Tree) (n : NodeId) (as : List Attribute) : Tree :=
  as.foldl (fun t a => t.withAttribute n a.name a.value) t

theorem addNode_eq_ok {t₁ : Tree} (hi : i.content?.filter o.keeps = some content)
    (h₁ : t.appendNew p content = .ok (n, t₁))
    (h' : t₁.setAttributes n i.attributes = .ok t') : t.addNode o p i = .ok (n, t') := by
  rw [addNode, hi]
  dsimp only
  rw [h₁]
  change (t₁.setAttributes n i.attributes).bind _ = _
  rw [h']
  rfl

/-! ## Trees that are loaded -/

/-- The node may have children: it is the document node or an element. -/
def Takes (t : Tree) (p : NodeId) : Prop := p = .root ∨ t.isElement p = true

/-- What holds of a tree while it is loaded. -/
structure Loading (t : Tree) : Prop where
  linked : t.WellLinked t.children
  tracks : t.Tracks
  attached : ∀ n, t.contains n = true → ReflTransGen t.HasChild .root n
  parents : t.ParentsAreElements
  indexesFirst : t.IndexesFirst
  /-- The tables of ids hold elements only. -/
  recorded : ∀ n, t.IsRecorded n → t.isElement n = true

theorem loading_empty : Tree.empty.Loading where
  linked := wellLinked_empty.withChildren
  tracks := tracks_empty
  attached n hn := by
    obtain ⟨i, hi, rfl⟩ := contains_iff.mp hn
    obtain rfl : i = 0 := Nat.lt_one_iff.mp hi
    exact .refl
  parents p c hc := by
    rw [wellLinked_empty.hasChild_iff_mem] at hc
    exact absurd hc List.not_mem_nil
  indexesFirst := indexesFirst_empty
  recorded n hn := by simp [IsRecorded, indexedElement?, owners, empty] at hn

namespace Loading

variable (h : t.Loading)

include h

theorem contains_of_takes (hp : t.Takes p) : t.contains p = true :=
  hp.elim (fun e => e ▸ h.linked.contains_root) contains_of_isElement

theorem isConnected (hn : t.contains n = true) : t.isConnected n = true :=
  h.linked.isInclusiveAncestor_iff.mpr ⟨contains_ne_null hn, h.attached n hn⟩

theorem isConnected_of_isElement (n : NodeId) (hn : t.isElement n = true) :
    t.isConnected n = true :=
  h.isConnected (contains_of_isElement hn)

theorem append (hp : t.Takes p) (hc : ∀ e ∈ content.element?, e.attributes = .empty) :
    ∃ t', t.appendNew p content = .ok (.slot t.size, t') ∧ t'.Loading ∧ t.Appends p content t' ∧
      t'.indexedElement? = t.indexedElement? ∧ t'.owners = t.owners := by
  have hpt := h.contains_of_takes hp
  obtain ⟨t', hok, ⟨kids, hw⟩, ha, hd⟩ := h.linked.appendNew hpt content
  have hindex : t'.idIndex = t.idIndex := hd.idIndex
  have howners : t'.owners = t.owners := funext fun v => by
    rw [owners, hd.idOwners]
    rfl
  have hindexed : t'.indexedElement? = t.indexedElement? :=
    funext fun v => by rw [indexedElement?, hindex, indexedElement?]
  have hchild : ∀ {m n}, t.HasChild m n → t'.HasChild m n := fun hm =>
    ha.hasChild_iff.mpr (.inl hm)
  refine ⟨t', hok, ⟨hw.withChildren, (h.tracks.push hc).congr hd, fun n hn => ?_, fun q c hqc => ?_,
    h.indexesFirst.append ha hindex hc, fun n hn => ?_⟩, ha, hindexed, howners⟩
  · rcases ha.contains_iff.mp hn with rfl | hn
    · exact ((h.attached p hpt).lift id fun _ _ => hchild).tail
        (ha.hasChild_iff.mpr (.inr ⟨rfl, rfl⟩))
    · exact (h.attached n hn).lift id fun _ _ => hchild
  · rcases ha.hasChild_iff.mp hqc with hqc | ⟨rfl, -⟩
    · exact (h.parents q c hqc).imp_right ha.isElement
    · exact hp.imp_right ha.isElement
  · rw [IsRecorded, hindexed, howners] at hn
    exact ha.isElement (h.recorded n hn)

omit h in
theorem withAttribute (ha : t.Appends p (.element e) t') (h : t'.Loading) (name value : String) :
    (t'.withAttribute (.slot t.size) name value).Loading := by
  have hchild : (t'.withAttribute (.slot t.size) name value).HasChild = t'.HasChild := by
    funext q c
    rw [HasChild, h.linked.children_withAttribute, HasChild]
  have hnot : .slot t.size ∉ t.ids := fun hm => ne_slot_size (contains_iff_mem_ids.mpr hm) rfl
  refine ⟨(h.linked.withAttribute _ _ _).withChildren, h.tracks.withAttribute _ _ _, fun n hn => ?_,
    fun q c hqc => ?_, h.indexesFirst.withAttribute h.linked h.tracks h.isConnected_of_isElement
    ha.ids hnot ha.isElement_new name value, fun n hn => ?_⟩
  · rw [contains_withAttribute] at hn
    rw [hchild]
    exact h.attached n hn
  · rw [isElement_withAttribute]
    exact h.parents q c (hchild ▸ hqc)
  · rw [isElement_withAttribute]
    rcases h.linked.isRecorded_withAttribute h.isConnected_of_isElement hn with rfl | hn
    · exact ha.isElement_new
    · exact h.recorded n hn

omit h in
theorem setAttributes (ha : t.Appends p (.element e) t') (h : t'.Loading) (as : List Attribute) :
    t'.setAttributes (.slot t.size) as = .ok (t'.withAttributes (.slot t.size) as) ∧
      (t'.withAttributes (.slot t.size) as).Loading ∧
      t.Appends p (Content.withAttributes as (.element e))
        (t'.withAttributes (.slot t.size) as) := by
  induction as generalizing e t' with
  | nil => exact ⟨rfl, h, ha⟩
  | cons a as ih =>
    have he := ha.isElement_new
    have hset : t'.setAttribute (.slot t.size) a.name a.value =
        .ok (t'.withAttribute (.slot t.size) a.name a.value) :=
      setAttribute_eq_ok.mpr ⟨⟨contains_of_isElement he, he⟩, rfl⟩
    obtain ⟨hok, hrest⟩ := ih (ha.withAttribute h.linked a.name a.value)
      (h.withAttribute ha a.name a.value)
    refine ⟨?_, hrest⟩
    rw [Tree.setAttributes, hset]
    exact hok

/-- **An item that is not left out gets a node.** -/
theorem addNode (hp : t.Takes p) (hi : i.content?.filter o.keeps = some content) :
    ∃ t', t.addNode o p i = .ok (.slot t.size, t') ∧ t'.Loading ∧
      t.Appends p (content.withAttributes i.attributes) t' := by
  rcases Item.of_content? (Option.filter_eq_some_iff.mp hi).1 with ⟨tag, rfl⟩ | ⟨he, hnil, -⟩
  · obtain ⟨t₁, h₁, hload, ha, -⟩ := h.append hp (Content.fresh_ofTag tag)
    obtain ⟨h', hload', ha'⟩ := hload.setAttributes ha i.attributes
    exact ⟨_, addNode_eq_ok hi h₁ h', hload', ha'⟩
  · obtain ⟨t', h', hload, ha, -⟩ := h.append hp (Content.fresh_of_element?_eq_none he)
    rw [hnil, Content.withAttributes_nil]
    exact ⟨t', addNode_eq_ok hi h' (by rw [hnil]; rfl), hload, ha⟩

end Loading

theorem takes_of_inner (hi : i.content?.filter o.keeps = some content)
    (ha : t.Appends p (content.withAttributes i.attributes) t') (hne : i.inner ≠ []) :
    t'.Takes (.slot t.size) := by
  rcases Item.of_content? (Option.filter_eq_some_iff.mp hi).1 with ⟨tag, rfl⟩ | ⟨-, -, hnil⟩
  · exact .inr ha.isElement_new
  · exact absurd hnil hne

/-! ## Items that wait -/

/-- The items become nodes of the second tree, whatever waits behind them. -/
def Loads (o : LoadOptions) (p : NodeId) (items : List Item) (t t' : Tree) : Prop :=
  ∀ waiting, t.addWaiting o (items.map (p, ·) ++ waiting) = t'.addWaiting o waiting

namespace Loads

theorem nil (o : LoadOptions) (p : NodeId) (t : Tree) : Loads o p [] t t := fun _ => rfl

theorem skip (hi : i.content?.filter o.keeps = none) (h : Loads o p items t t') :
    Loads o p (i :: items) t t' := by
  intro waiting
  have hadd : t.addNode o p i = .ok (.null, t) := by rw [addNode, hi]
  rw [List.map_cons, List.cons_append, addWaiting, hadd, Item.inner_eq_nil hi]
  exact h waiting

theorem node {t₁ t₂ : Tree} (hi : t.addNode o p i = .ok (n, t₁)) (h₁ : Loads o n i.inner t₁ t₂)
    (h₂ : Loads o p items t₂ t') : Loads o p (i :: items) t t' := by
  intro waiting
  rw [List.map_cons, List.cons_append, addWaiting, hi]
  exact (h₁ _).trans (h₂ waiting)

theorem addWaiting_eq (h : Loads o p items t t') :
    t.addWaiting o (items.map (p, ·)) = .ok t' := by
  have hall := h []
  rwa [List.append_nil, addWaiting] at hall

end Loads

/-- **Items become nodes of a tree that takes them.** -/
theorem Loading.loads (o : LoadOptions) (items : List Item) (h : t.Loading)
    (hp : items ≠ [] → t.Takes p) :
    ∃ t', Loads o p items t t' ∧ t'.Loading ∧ t.Extends p t' := by
  induction items using Item.forest_induction generalizing t p with
  | nil => exact ⟨t, .nil o p t, h, .refl t p⟩
  | cons i items ihInner ih =>
    have hp := hp (List.cons_ne_nil i items)
    have hpt := h.contains_of_takes hp
    cases hi : i.content?.filter o.keeps with
    | none =>
      obtain ⟨t', hl, h', hext⟩ := ih h fun _ => hp
      exact ⟨t', .skip hi hl, h', hext⟩
    | some content =>
      obtain ⟨t₁, hadd, h₁, ha⟩ := h.addNode hp hi
      obtain ⟨t₂, hl₁, h₂, hext₁⟩ := ihInner h₁ (takes_of_inner hi ha)
      have hext₂ := hext₁.nest h.linked hpt ha
      obtain ⟨t', hl₂, h', hext⟩ := ih h₂ fun _ => hp.imp_right hext₂.isElement
      exact ⟨t', .node hadd hl₁ hl₂, h', hext₂.trans hext hpt⟩

/-- **Every forest of items is loaded in document order.** -/
theorem loading_addWaiting (o : LoadOptions) (items : List Item) :
    ∃ t, Tree.empty.addWaiting o (items.map (.root, ·)) = .ok t ∧ t.Loading ∧
      t.preorder .root = t.ids := by
  obtain ⟨t, hl, h, hext⟩ := loading_empty.loads o items (p := .root) fun _ => .inl rfl
  obtain ⟨ns, vs, hns, hw, hvs⟩ := hext.added
  have hchildren : t.children .root = ns := hns
  have hroot : t.Walk (fun _ => True) [.root] (.root :: (vs ++ [])) :=
    .enter trivial (hchildren ▸ hw) .nil
  refine ⟨t, hl.addWaiting_eq, h, ?_⟩
  rw [h.linked.preorder_walk h.linked.contains_root hroot, List.append_nil, hvs]
  rfl

end Tree

namespace Document

variable {items : List Item} {text : String} {o : LoadOptions} {d : Document}

theorem ofItems_eq_ok {t : Tree} (h : Tree.empty.addWaiting o (items.map (.root, ·)) = .ok t) :
    ofItems o items = .ok (ofTree t) := by
  rw [ofItems, h]
  rfl

theorem ofText_eq_ok {read : String → Except String (List Item)} (hd : ofItems o items = .ok d)
    (ht : read text = .ok items) : ofText read o text = .ok d := by
  rw [ofText, ht]
  change (ofItems o items).mapError LoadError.tree = _
  rw [hd]
  rfl

theorem apply_of_ofItems {α : Type} {f : Document → α} {x : α} (hd : ofItems o items = .ok d)
    (hf : (ofItems o items).map f = .ok x) : f d = x := by
  rw [hd] at hf
  exact Except.ok.inj hf

end Document

end MarkupQuery
