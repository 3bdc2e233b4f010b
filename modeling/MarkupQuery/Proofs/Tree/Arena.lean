import Mathlib.Logic.Function.Iterate
import MarkupQuery.Proofs.Tree.Change

/-!
# The arena of nodes

The nodes of a tree lie in one array and are tied together by links. In every tree that comes of
changes the links stay inside the array and agree with each other, and whoever follows them comes to
an end. A change may therefore follow the links of a node without a look at the bounds of the array.

* `Tree.SoundLinks`: the laws of the links, with **`WellLinked.soundLinks`**;
* `WellLinked.iterate_parent`, `WellLinked.iterate_nextSibling`, `WellLinked.iterate_prevSibling`,
  `WellLinked.founded_stepsFrom`: every walk ends;
* `Tree.detach?`, `Tree.place?`, `Tree.insert?`, `Tree.remove?`: the moves with every access to the
  array checked, with **`WellLinked.insert?_eq`** and **`WellLinked.remove?_eq`**: no check fails;
* **`Tree.soundLinks_after`**: all of this for every tree that comes of changes.
-/

namespace MarkupQuery.Tree

open Function Relation

variable {t : Tree} {kids : NodeId → List NodeId} {p c n m : NodeId} {before : Option NodeId}

/-! ## Laws of the links -/

/-- One step of a walk down leads to `m` from `n`: to the first child, or on to the next sibling. -/
def StepsFrom (t : Tree) (m n : NodeId) : Prop :=
  m ≠ .null ∧ (t.firstChild n = m ∨ t.nextSibling n = m)

/-- The links stay inside the array of nodes, agree with each other, and lead to an end. -/
structure SoundLinks (t : Tree) : Prop where
  /-- Every link is null or leads to a node. -/
  inside : ∀ n, ∀ m ∈ [t.parent n, t.firstChild n, t.lastChild n, t.prevSibling n, t.nextSibling n],
    m = .null ∨ t.contains m = true
  /-- The document node has no parent and no siblings. -/
  root : t.parent .root = .null ∧ t.prevSibling .root = .null ∧ t.nextSibling .root = .null
  /-- The chain of the children begins and ends where the node says. -/
  ends : ∀ p, t.firstChild p = (t.children p).headD .null ∧
    t.lastChild p = (t.children p).getLastD .null
  /-- Each child is tied to the one before it and the one behind it, in both directions. -/
  chain : ∀ p, t.links.Run .null (t.children p) .null
  nodup : ∀ p, (t.children p).Nodup
  /-- The chain meets the nodes of that parent and no others. -/
  mem_children : ∀ p c, c ∈ t.children p ↔ t.parent c = p ∧ p ≠ .null
  /-- A node without parent has no siblings. -/
  orphan : ∀ c, t.parent c = .null → t.prevSibling c = .null ∧ t.nextSibling c = .null
  /-- No node lies above itself. -/
  acyclic : ∀ n, ¬ TransGen t.links.IsParent n n
  /-- A walk up has left the tree after as many steps as the tree has nodes. -/
  up : ∀ n, t.parent^[t.size] n = .null
  /-- So has a walk over the later siblings. -/
  forth : ∀ n, t.nextSibling^[t.size] n = .null
  /-- So has a walk over the earlier siblings. -/
  back : ∀ n, t.prevSibling^[t.size] n = .null
  /-- A walk down that goes on to siblings ends. -/
  down : WellFounded t.StepsFrom

/-! ## Walks end -/

theorem iterate_null_of_le {f : NodeId → NodeId} (hf : f .null = .null) {k l : ℕ}
    (hk : f^[k] n = .null) (hkl : k ≤ l) : f^[l] n = .null := by
  rw [← Nat.sub_add_cancel hkl, iterate_add_apply, hk, iterate_fixed hf]

namespace WellLinked

variable (h : t.WellLinked kids)

include h

theorem size_pos : 0 < t.size := by
  obtain ⟨i, hi, -⟩ := contains_iff.mp h.contains_root
  omega

theorem depth_lt_size (n : NodeId) : t.depth n < t.size := by
  classical
  by_cases hn : t.contains n = true
  · have hmem : n ∈ t.ids.toFinset := List.mem_toFinset.mpr (contains_iff_mem_ids.mp hn)
    calc t.depth n < t.ids.toFinset.card :=
          Finset.card_lt_card (Finset.filter_ssubset.mpr ⟨n, hmem, h.not_below_self⟩)
      _ ≤ t.ids.length := List.toFinset_card_le _
      _ = t.size := by rw [ids, List.length_map, List.length_range]
  · have hempty : t.depth n = 0 := by
      refine Finset.card_eq_zero.mpr (Finset.filter_eq_empty_iff.mpr fun a _ ha => ?_)
      exact hn (h.contains_of_below ha).2
    have := h.size_pos
    omega

/-- **A walk up ends.** -/
theorem iterate_parent (n : NodeId) : t.parent^[t.size] n = .null := by
  have hnull : t.parent .null = .null := h.forest.parent_null
  have key : t.parent^[t.depth n + 1] n = .null := by
    induction n using h.founded.induction with
    | h n ih =>
      rw [iterate_succ_apply]
      by_cases hp : t.parent n = .null
      · rw [hp, iterate_fixed hnull]
      · have hc := h.hasChild_iff.mpr ⟨rfl, hp⟩
        exact iterate_null_of_le hnull (ih _ hc) (h.depth_lt hc)
  exact iterate_null_of_le hnull key (h.depth_lt_size n)

theorem iterate_nextSibling (n : NodeId) : t.nextSibling^[t.size] n = .null := by
  have key : ∀ {l₁ l₂ : List NodeId} {c : NodeId}, kids (t.parent n) = l₁ ++ c :: l₂ →
      t.nextSibling^[l₂.length + 1] c = .null := by
    intro l₁ l₂
    induction l₂ generalizing l₁ with
    | nil => exact fun hk => (h.forest.neighbours hk).2
    | cons d l₂ ih =>
      intro c hk
      have hd : t.nextSibling c = d := (h.forest.neighbours hk).2
      rw [iterate_succ_apply, hd]
      exact ih (hk.trans (List.append_cons _ _ _))
  by_cases hp : t.parent n = .null
  · exact iterate_null_of_le rfl (k := 1) (h.forest.orphan hp).2 h.size_pos
  · obtain ⟨l₁, l₂, hk⟩ := h.exists_sides hp
    have hlen := h.length_sides_lt hk
    exact iterate_null_of_le rfl (key hk) (by omega)

theorem iterate_prevSibling (n : NodeId) : t.prevSibling^[t.size] n = .null := by
  have key : ∀ {l₁ l₂ : List NodeId} {c : NodeId}, kids (t.parent n) = l₁ ++ c :: l₂ →
      t.prevSibling^[l₁.length + 1] c = .null := by
    intro l₁
    induction l₁ using List.reverseRecOn with
    | nil => exact fun hk => (h.forest.neighbours hk).1
    | append_singleton l₁ d ih =>
      intro l₂ c hk
      have hd : t.prevSibling c = d := by
        have := (h.forest.neighbours hk).1
        rwa [Links.getLastD_append] at this
      rw [List.length_append, List.length_singleton, iterate_succ_apply, hd]
      exact ih (hk.trans (List.append_cons _ _ _).symm)
  by_cases hp : t.parent n = .null
  · exact iterate_null_of_le rfl (k := 1) (h.forest.orphan hp).1 h.size_pos
  · obtain ⟨l₁, l₂, hk⟩ := h.exists_sides hp
    have hlen := h.length_sides_lt hk
    exact iterate_null_of_le rfl (key hk) (by omega)

theorem hasChild_firstChild (hn : t.firstChild n ≠ .null) : t.HasChild n (t.firstChild n) := by
  rw [h.firstChild_eq] at hn ⊢
  exact Links.headD_mem_of_ne hn

theorem hasChild_nextSibling (hn : t.nextSibling n ≠ .null) :
    ∃ p, t.HasChild p (t.nextSibling n) := by
  have hp : t.parent n ≠ .null := fun hp => hn (h.forest.orphan hp).2
  exact ⟨_, h.hasChild_iff_mem.mpr (h.nextSibling_mem (h.mem_iff.mpr ⟨rfl, hp⟩) hn)⟩

theorem acc_stepsFrom (hchildren : ∀ c, t.HasChild n c → Acc t.StepsFrom c)
    (hnext : t.nextSibling n ≠ .null → Acc t.StepsFrom (t.nextSibling n)) :
    Acc t.StepsFrom n := by
  refine Acc.intro _ fun m hm => ?_
  obtain ⟨hm, rfl | rfl⟩ := hm
  · exact hchildren _ (h.hasChild_firstChild hm)
  · exact hnext hm

/-- **A walk down ends**, also if it goes on to siblings. -/
theorem founded_stepsFrom : WellFounded t.StepsFrom := by
  have hchildren : ∀ p c, t.HasChild p c → Acc t.StepsFrom c := by
    intro p
    induction p using h.induction_up with
    | ih p ih =>
      -- among the children of `p` from the last one to the first
      have key : ∀ {l₁ l₂ : List NodeId}, kids p = l₁ ++ l₂ → ∀ c ∈ l₂, Acc t.StepsFrom c := by
        intro l₁ l₂
        induction l₂ generalizing l₁ with
        | nil => exact fun _ c hc => absurd hc List.not_mem_nil
        | cons c l₂ ihl =>
          intro hk
          have hrest := ihl (hk.trans (List.append_cons _ _ _))
          have hc : t.HasChild p c := by
            rw [h.hasChild_iff_mem, hk]
            simp
          refine List.forall_mem_cons.mpr ⟨h.acc_stepsFrom (ih c hc) fun hne => ?_, hrest⟩
          rw [h.nextSibling_eq hk] at hne ⊢
          exact hrest _ (Links.headD_mem_of_ne hne)
      exact fun c hc => key (List.nil_append _).symm c (h.hasChild_iff_mem.mp hc)
  refine ⟨fun n => h.acc_stepsFrom (hchildren n) fun hn => ?_⟩
  obtain ⟨p, hp⟩ := h.hasChild_nextSibling hn
  exact hchildren p _ hp

/-! ## The laws hold -/

theorem links_inside (n : NodeId) :
    ∀ m ∈ [t.parent n, t.firstChild n, t.lastChild n, t.prevSibling n, t.nextSibling n],
      m = .null ∨ t.contains m = true := by
  have hsibling : t.prevSibling n ≠ .null ∨ t.nextSibling n ≠ .null → n ∈ kids (t.parent n) := by
    refine fun hs => h.mem_iff.mpr ⟨rfl, fun hp => ?_⟩
    exact hs.elim (fun hs => hs (h.forest.orphan hp).1) fun hs => hs (h.forest.orphan hp).2
  have hlast : t.lastChild n = (kids n).getLastD .null := h.forest.lastChild n
  simp only [List.forall_mem_cons, or_iff_not_imp_left]
  refine ⟨h.contains_parent, fun hn => ?_, fun hn => ?_, fun hn => ?_, fun hn => ?_, by simp⟩
  · exact (h.contains_of_below (.single (h.hasChild_firstChild hn))).2
  · rw [hlast] at hn ⊢
    exact h.contains_of_mem (Links.getLastD_mem_of_ne hn)
  · exact h.contains_prevSibling (hsibling (.inl hn)) hn
  · exact h.contains_nextSibling (hsibling (.inr hn)) hn

/-- **The laws hold where the links make a forest.** -/
theorem soundLinks : t.SoundLinks where
  inside := h.links_inside
  root := ⟨h.parent_root, h.forest.orphan h.parent_root⟩
  ends p := by
    rw [h.children_eq]
    exact ⟨h.forest.firstChild p, h.forest.lastChild p⟩
  chain p := h.children_eq p ▸ h.forest.run p
  nodup p := h.children_eq p ▸ h.forest.nodup p
  mem_children _ _ := h.hasChild_iff
  orphan _ := h.forest.orphan
  acyclic _ hn := h.forest.founded.transGen.irrefl.irrefl _ hn
  up := h.iterate_parent
  forth := h.iterate_nextSibling
  back := h.iterate_prevSibling
  down := h.founded_stepsFrom

end WellLinked

/-! ## Checked access -/

/-- The tree with one node changed; there is none if the id is not of the tree. -/
def modify? (t : Tree) (n : NodeId) (f : Node → Node) : Option Tree :=
  if t.contains n then some (t.modify n f) else none

/-- `Tree.link`, with every access checked. -/
def link? (t : Tree) (parent prev next : NodeId) : Option Tree := do
  let t ← (if prev = .null then t.modify? parent fun n => { n with firstChild := next }
    else t.modify? prev fun n => { n with nextSibling := next })
  if next = .null then t.modify? parent fun n => { n with lastChild := prev }
  else t.modify? next fun n => { n with prevSibling := prev }

/-- `Tree.detach`, with every access checked. -/
def detach? (t : Tree) (child : NodeId) : Option Tree := do
  let node ← t.node? child
  if node.parent = .null then some t
  else
    let t ← t.link? node.parent node.prevSibling node.nextSibling
    t.modify? child fun n =>
      { n with parent := .null, prevSibling := .null, nextSibling := .null }

/-- `Tree.place`, with every access checked. -/
def place? (t : Tree) (parent child : NodeId) (before : Option NodeId) : Option Tree := do
  let t ← t.detach? child
  let prev ← (match before with
    | some reference => (t.node? reference).map (·.prevSibling)
    | none => (t.node? parent).map (·.lastChild))
  let t ← t.modify? child fun n => { n with parent }
  let t ← t.link? parent prev child
  t.link? parent child (before.getD .null)

/-- `Tree.insert`, with every access checked. A refusal comes before the first unchecked access. -/
def insert? (t : Tree) (parent child : NodeId) (before : Option NodeId) :
    Option (Except TreeError Tree) :=
  match t.insertionFault? parent child before with
  | some e => some (.error e)
  | none => if before = some child then some (.ok t) else (t.place? parent child before).map .ok

/-- `Tree.remove`, with every access checked. -/
def remove? (t : Tree) (parent child : NodeId) : Option (Except TreeError Tree) :=
  match t.removalFault? parent child with
  | some e => some (.error e)
  | none => (t.detach? child).map .ok

theorem modify?_eq (hn : t.contains n = true) (f : Node → Node) :
    t.modify? n f = some (t.modify n f) :=
  if_pos hn

theorem modify?_ite (hp : t.contains p = true) {a : NodeId}
    (ha : a = .null ∨ t.contains a = true) (f g : Node → Node) :
    (if a = .null then t.modify? p f else t.modify? a g) =
      some (if a = .null then t.modify p f else t.modify a g) := by
  split_ifs with hn
  · exact modify?_eq hp f
  · exact modify?_eq (ha.resolve_left hn) g

theorem link?_eq {a b : NodeId} (hp : t.contains p = true) (ha : a = .null ∨ t.contains a = true)
    (hb : b = .null ∨ t.contains b = true) : t.link? p a b = some (t.link p a b) := by
  have hcontains : ∀ f g : Node → Node, ∀ n,
      (if a = .null then t.modify p f else t.modify a g).contains n = t.contains n := by
    intro f g n
    split_ifs <;> exact contains_modify _ t _ n
  unfold link? link
  rw [modify?_ite hp ha, Option.bind_eq_bind, Option.bind_some, modify?_ite]
  · rw [hcontains, hp]
  · rw [hcontains]
    exact hb

theorem graft?_eq {a b : NodeId} (hp : t.contains p = true) (hc : t.contains c = true)
    (ha : a = .null ∨ t.contains a = true) (hb : b = .null ∨ t.contains b = true) :
    ((t.modify? c fun n => { n with parent := p }).bind fun t =>
        (t.link? p a c).bind fun t => t.link? p c b) =
      some (((t.modify c fun n => { n with parent := p }).link p a c).link p c b) := by
  rw [modify?_eq hc, Option.bind_some, link?_eq, Option.bind_some, link?_eq]
  all_goals simp only [contains_link, contains_modify]
  · exact hp
  · exact .inr hc
  · exact hb
  · exact hp
  · exact ha
  · exact .inr hc

theorem node?_of_contains (hn : t.contains n = true) :
    ∃ x, t.node? n = some x ∧ x.parent = t.parent n ∧ x.lastChild = t.lastChild n ∧
      x.prevSibling = t.prevSibling n ∧ x.nextSibling = t.nextSibling n := by
  obtain ⟨x, hx⟩ := Option.isSome_iff_exists.mp hn
  refine ⟨x, hx, ?_, ?_, ?_, ?_⟩ <;>
    simp only [parent, lastChild, prevSibling, nextSibling, hx] <;> rfl

namespace WellLinked

variable (h : t.WellLinked kids)

include h

theorem detach?_eq (hc : t.contains c = true) : t.detach? c = some (t.detach c) := by
  have hin := h.links_inside c
  simp only [List.forall_mem_cons] at hin
  obtain ⟨hparent, -, -, hprev, hnext, -⟩ := hin
  obtain ⟨x, hx, hxp, -, hxprev, hxnext⟩ := node?_of_contains hc
  unfold detach? Tree.detach
  rw [hx, Option.bind_eq_bind, Option.bind_some, hxp, hxprev, hxnext]
  split_ifs with hp
  · exact congrArg some (if_pos hp).symm
  · rw [link?_eq (hparent.resolve_left hp) hprev hnext, Option.bind_eq_bind, Option.bind_some,
      modify?_eq ((contains_link _ _ _).trans hc)]
    exact congrArg some (if_neg hp).symm

theorem place?_eq (hp : t.contains p = true) (hc : t.contains c = true)
    (hb : ∀ r ∈ before, t.contains r = true) :
    t.place? p c before = some (t.place p c before) := by
  have h' := h.detach c
  have hcontains : ∀ n, (t.detach c).contains n = t.contains n := fun n => contains_detach c
  rw [← hcontains] at hp
  unfold place? Tree.place
  rw [h.detach?_eq hc, Option.bind_eq_bind, Option.bind_some]
  rw [← hcontains] at hc
  -- what is read after the child has left leads to a node, too
  cases before with
  | none =>
    obtain ⟨x, hx, -, hl, -⟩ := node?_of_contains hp
    have hin := h'.links_inside p ((t.detach c).lastChild p) (by simp)
    simp only [hx, Option.map_some, Option.bind_eq_bind, Option.bind_some, hl]
    exact graft?_eq hp hc hin (.inl rfl)
  | some r =>
    have hr := (hcontains r).trans (hb r rfl)
    obtain ⟨x, hx, -, -, hl, -⟩ := node?_of_contains hr
    have hin := h'.links_inside r ((t.detach c).prevSibling r) (by simp)
    simp only [hx, Option.map_some, Option.bind_eq_bind, Option.bind_some, hl]
    exact graft?_eq hp hc hin (.inr hr)

/-- **No access of an insertion leaves the array**, whatever the arguments are. -/
theorem insert?_eq (p c : NodeId) (before : Option NodeId) :
    t.insert? p c before = some (t.insert p c before) := by
  unfold insert? Tree.insert
  cases hf : t.insertionFault? p c before with
  | some e => rfl
  | none =>
    obtain ⟨hp, hc, -, -, hb⟩ := insertionFault?_eq_none.mp hf
    dsimp only
    split_ifs
    · rfl
    · rw [h.place?_eq hp hc fun r hr => (hb r hr).1]
      rfl

theorem remove?_eq (p c : NodeId) : t.remove? p c = some (t.remove p c) := by
  unfold remove? Tree.remove
  cases hf : t.removalFault? p c with
  | some e => rfl
  | none =>
    dsimp only
    rw [h.detach?_eq (removalFault?_eq_none.mp hf).1]
    rfl

end WellLinked

/-- **The links of a tree are sound at every time.** -/
theorem soundLinks_after (changes : List Change) :
    (after changes).SoundLinks ∧ ∀ parent child before,
      (after changes).insert? parent child before =
          some ((after changes).insert parent child before) ∧
        (after changes).remove? parent child = some ((after changes).remove parent child) := by
  obtain ⟨kids, h⟩ := wellLinked_after changes
  exact ⟨h.soundLinks, fun parent child before =>
    ⟨h.insert?_eq parent child before, h.remove?_eq parent child⟩⟩

end MarkupQuery.Tree
