import MarkupQuery.Proofs.Tree.Links

/-!
# Well-linked trees

A tree is *well linked* if its links make a forest, lead to nodes of the tree only, and leave the
document node without parent.

* `Tree.links`, `Tree.content?`: the links and the contents of all nodes;
* `Tree.SameData`: nothing but links differs, as after `Tree.detach` and `Tree.place`;
* `Tree.links_modify`, `Tree.links_link`, `Tree.links_detach`: what the changes do to the links;
* `Tree.WellLinked`, with **`WellLinked.children_eq`**;
* **`WellLinked.detach`**, **`WellLinked.graft`**: taking a node out and putting it in keep a tree
  well linked, and say what becomes of the lists of children.
-/

namespace MarkupQuery.Tree

open Function Relation

variable {t : Tree} {n m : NodeId}

/-! ## Links and contents -/

/-- The links of a tree. -/
def links (t : Tree) : Links :=
  ⟨t.parent, t.firstChild, t.lastChild, t.prevSibling, t.nextSibling⟩

/-- What a node holds. -/
def content? (t : Tree) (n : NodeId) : Option Content := (t.node? n).map (·.content)

theorem contains_eq_isSome_content? (t : Tree) (n : NodeId) :
    t.contains n = (t.content? n).isSome := by
  rw [contains, content?, Option.isSome_map]

theorem element?_eq_content? (t : Tree) (n : NodeId) :
    t.element? n = (t.content? n).bind Content.element? := by
  rw [element?, content?, Option.bind_map]
  rfl

theorem contains_iff : t.contains n = true ↔ ∃ i < t.size, n = .slot i := by
  cases n with
  | null => simp [contains, node?]
  | slot i => simp [contains, node?, size]

theorem contains_iff_mem_ids : t.contains n = true ↔ n ∈ t.ids := by
  rw [contains_iff, ids, List.mem_map]
  simp only [List.mem_range, eq_comm]

theorem contains_ne_null (h : t.contains n = true) : n ≠ .null := by
  rintro rfl
  simp [contains, node?] at h

theorem contains_of_parent (h : t.parent n ≠ .null) : t.contains n = true := by
  rw [contains]
  cases hn : t.node? n with
  | none => exact absurd (by rw [parent, hn]; rfl) h
  | some x => rfl

/-! ## Changing one node -/

section Modify

variable (f : Node → Node)

theorem node?_modify (t : Tree) (n m : NodeId) :
    (t.modify n f).node? m = if m = n then (t.node? m).map f else t.node? m := by
  cases n with
  | null => cases m <;> rfl
  | slot i =>
    cases m with
    | null => rfl
    | slot j => simp [modify, node?, Array.getElem?_modify, eq_comm]

theorem map_node?_modify {α : Type} (g : Node → α) (hg : ∀ x, g (f x) = g x) (t : Tree)
    (n m : NodeId) : ((t.modify n f).node? m).map g = (t.node? m).map g := by
  rw [node?_modify]
  split_ifs with h
  · rw [Option.map_map]
    exact congrArg (Option.map · _) (funext hg)
  · rfl

theorem contains_modify (t : Tree) (n m : NodeId) :
    (t.modify n f).contains m = t.contains m := by
  rw [contains, node?_modify, contains]
  split_ifs
  · exact Option.isSome_map
  · rfl

end Modify

/-! ## What a change of links leaves alone -/

/-- The second tree holds the same contents and the same tables of ids. Only links may differ. -/
structure SameData (t t' : Tree) : Prop where
  content? : ∀ n, t'.content? n = t.content? n
  idIndex : t'.idIndex = t.idIndex
  idOwners : t'.idOwners = t.idOwners

theorem tables_modify (t : Tree) (n : NodeId) (f : Node → Node) :
    (t.modify n f).idIndex = t.idIndex ∧ (t.modify n f).idOwners = t.idOwners := by
  cases n <;> exact ⟨rfl, rfl⟩

namespace SameData

variable {t' : Tree} (h : t.SameData t')

protected theorem refl (t : Tree) : t.SameData t := ⟨fun _ => rfl, rfl, rfl⟩

include h

theorem contains (n : NodeId) : t'.contains n = t.contains n := by
  rw [contains_eq_isSome_content?, contains_eq_isSome_content?, h.content?]

theorem element? (n : NodeId) : t'.element? n = t.element? n := by
  rw [element?_eq_content?, element?_eq_content?, h.content?]

theorem modify {f : Node → Node} (hf : ∀ x, (f x).content = x.content) :
    t.SameData (t'.modify n f) where
  content? m := (map_node?_modify f _ hf t' n m).trans (h.content? m)
  idIndex := (tables_modify t' n f).1.trans h.idIndex
  idOwners := (tables_modify t' n f).2.trans h.idOwners

theorem link (p a b : NodeId) : t.SameData (t'.link p a b) := by
  simp only [Tree.link]
  split_ifs <;> refine (h.modify ?_).modify ?_ <;> exact fun _ => rfl

theorem detach (c : NodeId) : t.SameData (t'.detach c) := by
  simp only [Tree.detach]
  split_ifs
  · exact h
  · refine (h.link _ _ _).modify ?_
    exact fun _ => rfl

theorem graft (p c a b : NodeId) :
    t.SameData (((t'.modify c fun n => { n with parent := p }).link p a c).link p c b) := by
  refine ((h.modify ?_).link p a c).link p c b
  exact fun _ => rfl

theorem place (p c : NodeId) (before : Option NodeId) : t.SameData (t'.place p c before) :=
  (h.detach c).graft p c _ _

end SameData

/-! ## Changing links -/

theorem links_modify {f : Node → Node}
    (hf : ∀ x c, f { x with content := c } = { f x with content := c })
    (hn : t.contains n = true) : (t.modify n f).links = t.links.modify n f := by
  obtain ⟨x, hx⟩ := Option.isSome_iff_exists.mp hn
  have e : t.links.nodeAt n = { x with content := .document } := by
    simp [Links.nodeAt, links, parent, firstChild, lastChild, prevSibling, nextSibling, hx]
  have hfx : f (t.links.nodeAt n) = { f x with content := .document } := by
    rw [e]
    exact hf x _
  have key : ∀ g : Node → NodeId, (∀ x c, g { x with content := c } = g x) →
      ∀ m, (((t.modify n f).node? m).map g).getD .null =
        update (fun m => ((t.node? m).map g).getD .null) n (g (f (t.links.nodeAt n))) m := by
    intro g hg m
    rw [node?_modify]
    by_cases h : m = n
    · rw [if_pos h, h, update_self, hx, hfx, hg]
      rfl
    · rw [if_neg h, update_of_ne h]
  exact Links.ext (funext (key (·.parent) fun _ _ => rfl))
    (funext (key (·.firstChild) fun _ _ => rfl)) (funext (key (·.lastChild) fun _ _ => rfl))
    (funext (key (·.prevSibling) fun _ _ => rfl)) (funext (key (·.nextSibling) fun _ _ => rfl))

theorem contains_link (p a b : NodeId) : (t.link p a b).contains n = t.contains n :=
  ((SameData.refl t).link p a b).contains n

theorem links_link {p a b : NodeId} (hp : t.contains p = true)
    (ha : a ≠ .null → t.contains a = true) (hb : b ≠ .null → t.contains b = true) :
    (t.link p a b).links = t.links.link p a b := by
  by_cases ha' : a = .null <;> by_cases hb' : b = .null
  · simp only [link, Links.link, if_pos ha', if_pos hb']
    rw [links_modify (fun _ _ => rfl) ((contains_modify _ t p p).trans hp),
      links_modify (fun _ _ => rfl) hp]
    simp [Links.modify, Links.nodeAt]
  · simp only [link, Links.link, if_pos ha', if_neg hb']
    rw [links_modify (fun _ _ => rfl) ((contains_modify _ t p b).trans (hb hb')),
      links_modify (fun _ _ => rfl) hp]
    simp [Links.modify, Links.nodeAt]
  · simp only [link, Links.link, if_neg ha', if_pos hb']
    rw [links_modify (fun _ _ => rfl) ((contains_modify _ t a p).trans hp),
      links_modify (fun _ _ => rfl) (ha ha')]
    simp [Links.modify, Links.nodeAt]
  · simp only [link, Links.link, if_neg ha', if_neg hb']
    rw [links_modify (fun _ _ => rfl) ((contains_modify _ t a b).trans (hb hb')),
      links_modify (fun _ _ => rfl) (ha ha')]
    simp [Links.modify, Links.nodeAt]

theorem links_detach {c : NodeId} (hc : t.parent c ≠ .null)
    (hp : t.contains (t.parent c) = true)
    (hprev : t.prevSibling c ≠ .null → t.contains (t.prevSibling c) = true)
    (hnext : t.nextSibling c ≠ .null → t.contains (t.nextSibling c) = true) :
    (t.detach c).links = t.links.cut (t.parent c) c := by
  simp only [detach, if_neg hc]
  rw [links_modify (fun _ _ => rfl) ((contains_link _ _ _).trans (contains_of_parent hc)),
    links_link hp hprev hnext]
  simp [Links.modify, Links.nodeAt, Links.cut, links]

theorem contains_detach (c : NodeId) : (t.detach c).contains n = t.contains n :=
  ((SameData.refl t).detach c).contains n

/-! ## Well-linked trees -/

/-- The links of a tree make a forest of its nodes, and the document node has no parent. -/
structure WellLinked (t : Tree) (kids : NodeId → List NodeId) : Prop where
  forest : t.links.Forest kids
  contains_parent : ∀ {n}, t.parent n ≠ .null → t.contains (t.parent n) = true
  content_root : t.content? .root = some .document
  parent_root : t.parent .root = .null

namespace WellLinked

variable {kids : NodeId → List NodeId} {p c : NodeId} (h : t.WellLinked kids)

include h

theorem mem_iff : c ∈ kids p ↔ t.parent c = p ∧ p ≠ .null := h.forest.mem_iff

theorem contains_root : t.contains .root = true := by
  rw [contains_eq_isSome_content?, h.content_root]
  rfl

theorem contains_of_mem (hc : c ∈ kids p) : t.contains c = true :=
  contains_of_parent ((h.mem_iff.mp hc).1 ▸ (h.mem_iff.mp hc).2)

theorem contains_of_mem_kids (hc : c ∈ kids p) : t.contains p = true := by
  obtain ⟨rfl, hp⟩ := h.mem_iff.mp hc
  exact h.contains_parent hp

theorem exists_sides (hp : t.parent c ≠ .null) : ∃ l₁ l₂, kids (t.parent c) = l₁ ++ c :: l₂ :=
  h.forest.exists_sides hp

theorem nextSibling_eq {l₁ l₂ : List NodeId} (hk : kids p = l₁ ++ c :: l₂) :
    t.nextSibling c = l₂.headD .null :=
  (h.forest.neighbours hk).2

theorem contains_prevSibling (hc : c ∈ kids p) (hn : t.prevSibling c ≠ .null) :
    t.contains (t.prevSibling c) = true := by
  obtain ⟨l₁, l₂, hk⟩ := List.append_of_mem hc
  have e : t.prevSibling c = l₁.getLastD .null := (h.forest.neighbours hk).1
  rw [e] at hn ⊢
  refine h.contains_of_mem (p := p) ?_
  rw [hk]
  exact List.mem_append_left _ (Links.getLastD_mem_of_ne hn)

theorem nextSibling_mem (hc : c ∈ kids p) (hn : t.nextSibling c ≠ .null) :
    t.nextSibling c ∈ kids p := by
  obtain ⟨l₁, l₂, hk⟩ := List.append_of_mem hc
  rw [h.nextSibling_eq hk] at hn ⊢
  rw [hk]
  exact List.mem_append_right _ (List.mem_cons_of_mem _ (Links.headD_mem_of_ne hn))

theorem contains_nextSibling (hc : c ∈ kids p) (hn : t.nextSibling c ≠ .null) :
    t.contains (t.nextSibling c) = true :=
  h.contains_of_mem (h.nextSibling_mem hc hn)

theorem length_kids_le (p : NodeId) : (kids p).length ≤ t.size := by
  have hsub : kids p ⊆ t.ids := fun c hc => contains_iff_mem_ids.mp (h.contains_of_mem hc)
  have hle := (h.forest.nodup p).length_le_of_subset hsub
  rwa [ids, List.length_map, List.length_range] at hle

theorem length_sides_lt {l₁ l₂ : List NodeId} (hk : kids p = l₁ ++ c :: l₂) :
    l₁.length + l₂.length < t.size := by
  have hle := h.length_kids_le p
  rw [hk, List.length_append, List.length_cons] at hle
  omega

theorem siblingsFrom_eq (l₁ : List NodeId) {l₂ : List NodeId} (hk : kids p = l₁ ++ l₂) {fuel : Nat}
    (hf : l₂.length ≤ fuel) : t.siblingsFrom fuel (l₂.headD .null) = l₂ := by
  induction l₂ generalizing l₁ fuel with
  | nil => cases fuel <;> rfl
  | cons c l₂ ih =>
    obtain ⟨fuel, rfl⟩ := Nat.exists_eq_add_one_of_ne_zero (Nat.ne_zero_of_lt hf)
    have hc : t.contains c = true := h.contains_of_mem (p := p) (by rw [hk]; simp)
    rw [List.headD_cons, siblingsFrom, if_pos hc, h.nextSibling_eq hk]
    exact congrArg (c :: ·) (ih (l₁ ++ [c]) (by rw [hk]; simp) (Nat.le_of_succ_le_succ hf))

/-- **The walk over the children meets the list of children.** -/
theorem children_eq (p : NodeId) : t.children p = kids p := by
  have hf : t.firstChild p = (kids p).headD .null := h.forest.firstChild p
  rw [children, hf]
  exact h.siblingsFrom_eq [] rfl (h.length_kids_le p)

theorem firstChild_eq (p : NodeId) : t.firstChild p = (t.children p).headD .null := by
  rw [h.children_eq]
  exact h.forest.firstChild p

theorem erase_eq_self (hc : t.parent c ≠ p) : (kids p).erase c = kids p :=
  List.erase_of_not_mem fun hm => hc (h.mem_iff.mp hm).1

/-- **Detaching a node takes it out of all lists of children.** -/
theorem detach (c : NodeId) : (t.detach c).WellLinked fun q => (kids q).erase c := by
  by_cases hc : t.parent c = .null
  · have e : (fun q => (kids q).erase c) = kids := by
      funext q
      exact List.erase_of_not_mem fun hm => (h.mem_iff.mp hm).2 ((h.mem_iff.mp hm).1.symm.trans hc)
    rw [Tree.detach, if_pos hc, e]
    exact h
  · have hm : c ∈ kids (t.parent c) := h.mem_iff.mpr ⟨rfl, hc⟩
    obtain ⟨l₁, l₂, hk⟩ := List.append_of_mem hm
    have hl : (t.detach c).links = t.links.cut (t.parent c) c :=
      links_detach hc (h.contains_parent hc) (h.contains_prevSibling hm)
        (h.contains_nextSibling hm)
    have hp : ∀ n, (t.detach c).parent n = update t.parent c .null n :=
      congrFun (congrArg Links.parent hl)
    have e : (fun q => (kids q).erase c) = update kids (t.parent c) (l₁ ++ l₂) := by
      funext q
      by_cases hq : q = t.parent c
      · rw [hq, update_self, hk, List.erase_append_right _ (h.forest.not_mem_sides hk).1,
          List.erase_cons_head]
      · rw [update_of_ne hq]
        exact h.erase_eq_self (Ne.symm hq)
    rw [e]
    refine ⟨hl ▸ h.forest.cut hk, ?_, ?_, ?_⟩
    · intro n hn
      rw [contains_detach]
      rw [hp] at hn ⊢
      by_cases hnc : n = c
      · rw [hnc, update_self] at hn
        exact absurd rfl hn
      · rw [update_of_ne hnc] at hn ⊢
        exact h.contains_parent hn
    · rw [((SameData.refl t).detach c).content?]
      exact h.content_root
    · rw [hp]
      by_cases hr : NodeId.root = c
      · rw [hr, update_self]
      · rw [update_of_ne hr]
        exact h.parent_root

theorem graft {l₁ l₂ : List NodeId} (hk : kids p = l₁ ++ l₂) (hp : t.contains p = true)
    (hc : t.contains c = true) (hc₀ : t.parent c = .null) (hr : c ≠ .root)
    (hpc : ¬ ReflTransGen t.links.IsParent c p) :
    (((t.modify c fun n => { n with parent := p }).link p (l₁.getLastD .null) c).link p c
      (l₂.headD .null)).WellLinked (update kids p (l₁ ++ c :: l₂)) := by
  have hmem : ∀ x ∈ l₁ ++ l₂, t.contains x = true := fun x hx => h.contains_of_mem (hk ▸ hx)
  have ha : l₁.getLastD .null ≠ .null → t.contains (l₁.getLastD .null) = true := fun hn =>
    hmem _ (List.mem_append_left _ (Links.getLastD_mem_of_ne hn))
  have hb : l₂.headD .null ≠ .null → t.contains (l₂.headD .null) = true := fun hn =>
    hmem _ (List.mem_append_right _ (Links.headD_mem_of_ne hn))
  have hl : (((t.modify c fun n => { n with parent := p }).link p (l₁.getLastD .null) c).link p c
      (l₂.headD .null)).links = t.links.graft p c (l₁.getLastD .null) (l₂.headD .null) := by
    rw [links_link, links_link, links_modify (fun _ _ => rfl) hc]
    · simp [Links.graft, Links.modify, Links.nodeAt]
    all_goals simp only [contains_link, contains_modify]
    · exact hp
    · exact ha
    · exact fun _ => hc
    · exact hp
    · exact fun _ => hc
    · exact hb
  have hdata := (SameData.refl t).graft p c (l₁.getLastD .null) (l₂.headD .null)
  have hpar : ∀ n, (((t.modify c fun n => { n with parent := p }).link p (l₁.getLastD .null)
      c).link p c (l₂.headD .null)).parent n = update t.parent c p n :=
    congrFun (congrArg Links.parent hl)
  refine ⟨hl ▸ h.forest.graft hk (contains_ne_null hp) (contains_ne_null hc) hc₀ hpc, ?_, ?_, ?_⟩
  · intro n hn
    rw [hdata.contains]
    rw [hpar] at hn ⊢
    by_cases hnc : n = c
    · rw [hnc, update_self]
      exact hp
    · rw [update_of_ne hnc] at hn ⊢
      exact h.contains_parent hn
  · rw [hdata.content?]
    exact h.content_root
  · rw [hpar, update_of_ne hr.symm]
    exact h.parent_root

end WellLinked

end MarkupQuery.Tree
