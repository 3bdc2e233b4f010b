import MarkupQuery.Proofs.Tree.Ancestors
import MarkupQuery.Tree.Ids

/-!
# Changes of a tree

Everything that can be done to a tree, one call at a time, and the trees that come of it.

* `Tree.putBefore`: where a node goes in a list of children;
* `WellLinked.wouldLoop_iff`, `Tree.insertionFault?_eq_none`, `Tree.removalFault?_eq_none`: when a
  move is allowed;
* **`Tree.WellLinked.place`**: a move that is allowed changes the lists of children as it should;
* `Change`, `Change.apply`, `Change.Tracked`, `Tree.after`;
* **`Tree.wellLinked_after`**: every tree that comes of changes is well linked.
-/

namespace MarkupQuery

open Function Relation

namespace Tree

variable {t t' : Tree} {kids : NodeId → List NodeId} {p c n : NodeId} {before : Option NodeId}

/-! ## Changes that leave the links alone -/

theorem wellLinked_empty : Tree.empty.WellLinked fun _ => [] := by
  have hnode : ∀ n, empty.node? n = if n = .root then some { content := .document } else none := by
    rintro (_ | _ | i)
    · rfl
    · rfl
    · simp [empty, node?, NodeId.root]
  have hlinks : empty.links = ⟨fun _ => .null, fun _ => .null, fun _ => .null, fun _ => .null,
      fun _ => .null⟩ := by
    refine Links.ext ?_ ?_ ?_ ?_ ?_ <;> funext n <;>
      simp only [links, parent, firstChild, lastChild, prevSibling, nextSibling, hnode] <;>
      split_ifs <;> rfl
  have hparent : ∀ n, empty.parent n = .null := congrFun (congrArg Links.parent hlinks)
  refine ⟨?_, fun {n} hn => absurd (hparent n) hn, rfl, rfl⟩
  rw [hlinks]
  refine ⟨rfl, ?_, fun _ => List.nodup_nil, fun _ => rfl, fun _ => rfl, fun _ => trivial,
    fun _ => ⟨rfl, rfl⟩, ?_⟩
  · intro p c
    simp [Links.IsParent, eq_comm]
  · exact ⟨fun x => Acc.intro _ fun q hq => absurd hq.1.symm hq.2⟩

theorem node?_push (t : Tree) (content : Content) (n : NodeId) :
    (t.push content).2.node? n = if n = .slot t.size then some { content } else t.node? n := by
  cases n with
  | null => rfl
  | slot i => simp [push, node?, size, Array.getElem?_push]

theorem node?_slot_size (t : Tree) : t.node? (.slot t.size) = none := by
  simp [node?, size]

theorem links_push (t : Tree) (content : Content) : (t.push content).2.links = t.links := by
  refine Links.ext ?_ ?_ ?_ ?_ ?_ <;> funext n <;>
    simp only [links, parent, firstChild, lastChild, prevSibling, nextSibling, node?_push] <;>
    split_ifs with hn <;> first | rfl | rw [hn, node?_slot_size]; rfl

theorem WellLinked.congr (h : t.WellLinked kids) (hl : t'.links = t.links)
    (hc : ∀ {n}, t.contains n = true → t'.contains n = true)
    (hr : t'.content? .root = t.content? .root) : t'.WellLinked kids := by
  have hp : t'.parent = t.parent := congrArg Links.parent hl
  refine ⟨hl ▸ h.forest, ?_, hr.trans h.content_root, ?_⟩
  · intro n hn
    rw [hp] at hn ⊢
    exact hc (h.contains_parent hn)
  · rw [hp]
    exact h.parent_root

/-- **A new node is in no list of children and has none.** -/
theorem WellLinked.push (h : t.WellLinked kids) (content : Content) :
    (t.push content).2.WellLinked kids := by
  refine h.congr (links_push t content) ?_ ?_
  · intro n hn
    rw [contains, node?_push]
    split_ifs
    · rfl
    · exact hn
  · rw [content?, node?_push, if_neg, content?]
    intro e
    have := contains_eq_isSome_content? t .root
    rw [h.content_root, contains, e, node?_slot_size] at this
    exact absurd this (by simp)

theorem contains_modifyAttributes (t : Tree) (n : NodeId) (f : Attributes → Attributes)
    (m : NodeId) : (t.modifyAttributes n f).contains m = t.contains m := contains_modify _ t n m

theorem links_modifyAttributes (t : Tree) (n : NodeId) (f : Attributes → Attributes) :
    (t.modifyAttributes n f).links = t.links := by
  have key : ∀ g : Node → NodeId, (∀ x c, g { x with content := c } = g x) →
      ∀ m, ((t.modifyAttributes n f).node? m).map g = (t.node? m).map g :=
    fun g hg m => map_node?_modify _ g (fun x => hg x _) t n m
  refine Links.ext ?_ ?_ ?_ ?_ ?_ <;> funext m <;>
    exact congrArg (Option.getD · _) (key _ (fun _ _ => rfl) m)

theorem content?_modifyAttributes (t : Tree) (n m : NodeId) (f : Attributes → Attributes) :
    (t.modifyAttributes n f).content? m =
      if m = n then (t.content? m).map (·.mapElement fun e => { e with attributes := f e.attributes })
      else t.content? m := by
  rw [modifyAttributes, content?, node?_modify]
  split_ifs
  · rw [content?, Option.map_map, Option.map_map]
    rfl
  · rfl

theorem WellLinked.modifyAttributes (h : t.WellLinked kids) (n : NodeId)
    (f : Attributes → Attributes) : (t.modifyAttributes n f).WellLinked kids := by
  refine h.congr (links_modifyAttributes t n f)
    (fun hn => (contains_modifyAttributes t n f _).trans hn) ?_
  rw [content?_modifyAttributes, h.content_root]
  split_ifs <;> rfl

theorem WellLinked.withAttribute (h : t.WellLinked kids) (n : NodeId) (name value : String) :
    (t.withAttribute n name value).WellLinked kids := by
  rw [Tree.withAttribute]
  split_ifs
  -- the tables of ids have no part in the links
  · exact (h.modifyAttributes n _).congr rfl id rfl
  · exact h.modifyAttributes n _

/-! ## Moves -/

/-- A list with `c` in front of its member `r`, or at the end. -/
def putBefore (c : NodeId) (before : Option NodeId) (l : List NodeId) : List NodeId :=
  match before with
  | some r => l.takeWhile (· ≠ r) ++ c :: l.dropWhile (· ≠ r)
  | none => l ++ [c]

theorem putBefore_append {r : NodeId} {l₁ l₂ : List NodeId} (hr : r ∉ l₁) :
    putBefore c (some r) (l₁ ++ r :: l₂) = l₁ ++ c :: r :: l₂ := by
  have hne : ∀ x ∈ l₁, decide (x ≠ r) = true := fun x hx =>
    decide_eq_true fun e => hr (e ▸ hx)
  unfold putBefore
  dsimp only
  rw [List.takeWhile_append_of_pos hne, List.dropWhile_append_of_pos hne]
  simp

theorem insertionFault?_eq_none : t.insertionFault? p c before = none ↔
    t.contains p = true ∧ t.contains c = true ∧ c ≠ .root ∧ t.wouldLoop p c = false ∧
      ∀ r ∈ before, t.contains r = true ∧ t.parent r = p := by
  unfold insertionFault?
  cases before <;> dsimp only <;> split_ifs <;> simp_all [or_iff_not_imp_left]

theorem removalFault?_eq_none :
    t.removalFault? p c = none ↔ t.contains c = true ∧ t.parent c = p := by
  unfold removalFault?
  split_ifs <;> simp_all

theorem WellLinked.wouldLoop_iff (h : t.WellLinked kids) (hp : t.contains p = true) :
    t.wouldLoop p c = true ↔ ReflTransGen t.HasChild c p := by
  have hpn := contains_ne_null hp
  rw [wouldLoop, Bool.or_eq_true, Bool.and_eq_true, h.isInclusiveAncestor_iff, decide_eq_true_iff,
    decide_eq_true_iff]
  constructor
  · rintro (rfl | ⟨-, -, hcp⟩)
    · exact .refl
    · exact hcp
  · intro hcp
    rcases hcp.cases_head with rfl | ⟨x, hx, -⟩
    · exact .inl rfl
    · refine .inr ⟨fun e => ?_, hpn, hcp⟩
      rw [h.hasChild_iff_mem] at hx
      have hf : t.firstChild c = (kids c).headD .null := h.forest.firstChild c
      rw [hf, Links.headD_eq_null_iff h.forest.null_not_mem] at e
      rw [e] at hx
      exact absurd hx List.not_mem_nil

/-- **A move that is allowed takes the node to its new place.** -/
theorem WellLinked.place (h : t.WellLinked kids) (hf : t.insertionFault? p c before = none)
    (hb : before ≠ some c) :
    (t.place p c before).WellLinked
      (update (fun q => (kids q).erase c) p (putBefore c before ((kids p).erase c))) := by
  obtain ⟨hp, hc, hr, hloop, hbefore⟩ := insertionFault?_eq_none.mp hf
  -- the place is looked for in the list that `c` has been taken out of
  have h' := h.detach c
  have hloop' : ¬ ReflTransGen (t.detach c).links.IsParent c p := by
    intro hcp
    refine Bool.eq_false_iff.mp hloop ((h.wouldLoop_iff hp).mpr ?_)
    rw [h.hasChild_eq]
    refine hcp.lift id fun q x hx => h.forest.mem_iff.mp ?_
    exact List.mem_of_mem_erase (h'.forest.mem_iff.mpr hx)
  have hc₀ : (t.detach c).parent c = .null := by
    by_contra hne
    have hm := h'.mem_iff.mpr ⟨rfl, hne⟩
    exact (List.Nodup.not_mem_erase (h.forest.nodup _)) hm
  have hp' := (contains_detach c).trans hp
  have hc' := (contains_detach c).trans hc
  cases before with
  | none =>
    have hl : (t.detach c).lastChild p = ((kids p).erase c).getLastD .null :=
      h'.forest.lastChild p
    rw [Tree.place, putBefore]
    simp only [hl]
    exact h'.graft (List.append_nil _).symm hp' hc' hc₀ hr hloop'
  | some r =>
    have hrc : r ≠ c := fun e => hb (by rw [e])
    have hrm : r ∈ (kids p).erase c := (List.mem_erase_of_ne hrc).mpr
      (h.mem_iff.mpr ⟨(hbefore r rfl).2, contains_ne_null hp⟩)
    obtain ⟨l₁, l₂, hk⟩ := List.append_of_mem hrm
    have hprev : (t.detach c).prevSibling r = l₁.getLastD .null := (h'.forest.neighbours hk).1
    rw [Tree.place, hk, putBefore_append (h'.forest.not_mem_sides hk).1]
    simp only [hprev]
    exact h'.graft hk hp' hc' hc₀ hr hloop'

end Tree

/-! ## Changes -/

/-- A call that changes a tree. -/
inductive Change where
  | createElement (tag : String)
  | createText (data : String)
  | createComment (data : String)
  | createDoctype (name : String)
  | insert (parent child : NodeId) (before : Option NodeId)
  | remove (parent child : NodeId)
  | setAttribute (n : NodeId) (name value : String)
  | removeAttribute (n : NodeId) (name : String)
  /-- A value is given behind the back of the tables of ids. -/
  | writeAttribute (n : NodeId) (name value : String)
  /-- An attribute is taken away behind the back of the tables of ids. -/
  | eraseAttribute (n : NodeId) (name : String)

namespace Change

/-- The tree after a call; a call that is refused changes nothing. -/
def apply (t : Tree) : Change → Tree
  | createElement tag => (t.createElement tag).2
  | createText data => (t.createText data).2
  | createComment data => (t.createComment data).2
  | createDoctype name => (t.createDoctype name).2
  | insert parent child before => (t.insert parent child before).toOption.getD t
  | remove parent child => (t.remove parent child).toOption.getD t
  | setAttribute n name value => (t.setAttribute n name value).toOption.getD t
  | removeAttribute n name => ((t.removeAttribute n name).toOption.map (·.2)).getD t
  | writeAttribute n name value => t.modifyAttributes n fun m => (m.set name value).2
  | eraseAttribute n name => t.modifyAttributes n fun m => (m.erase name).2

/-- The call goes through the tree, which can keep its tables of ids up to date. -/
def Tracked : Change → Prop
  | writeAttribute .. | eraseAttribute .. => False
  | _ => True

theorem wellLinked_apply {t : Tree} (h : ∃ kids, t.WellLinked kids) (change : Change) :
    ∃ kids, (change.apply t).WellLinked kids := by
  obtain ⟨kids, h⟩ := h
  cases change with
  | createElement tag => exact ⟨kids, h.push _⟩
  | createText data => exact ⟨kids, h.push _⟩
  | createComment data => exact ⟨kids, h.push _⟩
  | createDoctype name => exact ⟨kids, h.push _⟩
  | insert parent child before =>
    rw [apply, Tree.insert]
    cases hf : t.insertionFault? parent child before with
    | some e => exact ⟨kids, h⟩
    | none =>
      by_cases hb : before = some child
      · simp only [if_pos hb]
        exact ⟨kids, h⟩
      · simp only [if_neg hb]
        exact ⟨_, h.place hf hb⟩
  | remove parent child =>
    rw [apply, Tree.remove]
    cases t.removalFault? parent child with
    | some e => exact ⟨kids, h⟩
    | none => exact ⟨_, h.detach child⟩
  | setAttribute n name value =>
    rw [apply, Tree.setAttribute]
    cases t.attributeFault? n with
    | some e => exact ⟨kids, h⟩
    | none => exact ⟨kids, h.withAttribute n name value⟩
  | removeAttribute n name =>
    rw [apply, Tree.removeAttribute]
    cases t.attributeFault? n with
    | some e => exact ⟨kids, h⟩
    | none => exact ⟨kids, h.modifyAttributes n fun m => (m.erase name).2⟩
  | writeAttribute n name value => exact ⟨kids, h.modifyAttributes n fun m => (m.set name value).2⟩
  | eraseAttribute n name => exact ⟨kids, h.modifyAttributes n fun m => (m.erase name).2⟩

end Change

namespace Tree

/-- The tree that comes of changes, from the document node alone. -/
def after (changes : List Change) : Tree := changes.foldl Change.apply .empty

theorem after_concat (changes : List Change) (change : Change) :
    after (changes ++ [change]) = change.apply (after changes) := by
  rw [after, List.foldl_concat, after]

/-- **Every tree that comes of changes is well linked.** -/
theorem wellLinked_after (changes : List Change) : ∃ kids, (after changes).WellLinked kids := by
  induction changes using List.reverseRecOn with
  | nil => exact ⟨_, wellLinked_empty⟩
  | append_singleton changes change ih =>
    rw [after_concat]
    exact change.wellLinked_apply ih

end Tree

end MarkupQuery
