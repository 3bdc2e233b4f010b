import MarkupQuery.Proofs.Tree.Change

/-!
# The forest of a tree

All that the links of a tree tell is which children each node has, in which order. Seen so, a tree
is an ordered forest, and moving a node is an operation on lists.

* `OrderedForest`, with `OrderedForest.insert` and `OrderedForest.remove`: the moves, on lists;
* `Tree.toForest`: the forest of a tree;
* `WellLinked.insertionFault?_eq`, `WellLinked.removalFault?_eq`: a tree refuses what its forest
  refuses, for the same reason;
* **`WellLinked.insert_refines`**, **`WellLinked.remove_refines`**: a tree moves as its forest does;
* **`Tree.moves_refine`**: the same for every tree that comes of changes.
-/

namespace MarkupQuery

open Function Relation

/-! ## Ordered forests -/

/-- Nodes, and for every node the list of its children. -/
structure OrderedForest where
  nodes : Set NodeId
  children : NodeId → List NodeId

namespace OrderedForest

variable (F : OrderedForest) (p c n : NodeId) (before : Option NodeId)

/-- The node `n` is `c` or lies below it. -/
def AtOrBelow : Prop := ReflTransGen (fun q x => x ∈ F.children q) c n

/-- The node `p` has the child `c`. A node that is a child of none counts as one of the null id. -/
def IsParent : Prop := c ∈ F.children p ∨ p = .null ∧ ∀ q, c ∉ F.children q

/-- The forest with `c` taken out of the list it is in and put into that of `p`. -/
def move : OrderedForest :=
  { F with
    children := update (fun q => (F.children q).erase c) p
      (Tree.putBefore c before ((F.children p).erase c)) }

open Classical in
/-- Why `c` cannot be put under `p`. -/
noncomputable def insertionFault? : Option TreeError :=
  if p ∉ F.nodes then some (.invalidNode p)
  else if c ∉ F.nodes then some (.invalidNode c)
  else if c = .root ∨ F.AtOrBelow c p then some .hierarchyRequest
  else match before with
    | none => none
    | some r =>
      if r ∉ F.nodes then some (.invalidNode r)
      else if r ∉ F.children p then some (.notAChild r)
      else none

open Classical in
/-- Why `c` cannot be taken out of `p`. -/
noncomputable def removalFault? : Option TreeError :=
  if c ∉ F.nodes then some (.invalidNode c)
  else if ¬ F.IsParent p c then some (.notAChild c)
  else none

/-- Puts `c` under `p`, right before a child of it or at the end. -/
noncomputable def insert : Except TreeError OrderedForest :=
  match F.insertionFault? p c before with
  | some e => .error e
  | none => .ok (if before = some c then F else F.move p c before)

/-- Takes `c` out of the list of `p`. All other lists stay. -/
noncomputable def remove : Except TreeError OrderedForest :=
  match F.removalFault? p c with
  | some e => .error e
  | none => .ok { F with children := update F.children p ((F.children p).erase c) }

end OrderedForest

namespace Tree

variable {t t' : Tree} {kids : NodeId → List NodeId} {p c : NodeId} {before : Option NodeId}

/-- The forest of a tree, read along the links from first children to next siblings. -/
def toForest (t : Tree) : OrderedForest := ⟨{n | t.contains n = true}, t.children⟩

/-- A change of `t` does to its forest what the operation on forests does. A refusal leaves the tree
as it was, and a change that goes through leaves all contents and both tables of ids. -/
structure Refines (t : Tree) (change : Change) (result : Except TreeError Tree)
    (forest : Except TreeError OrderedForest) : Prop where
  forest : result.map toForest = forest
  data : t.SameData (change.apply t)
  refused : ∀ e, result = .error e → change.apply t = t

theorem Refines.of_error {change : Change} {e : TreeError} (h : change.apply t = t) :
    t.Refines change (.error e) (.error e) :=
  ⟨rfl, by rw [h]; exact .refl t, fun _ _ => h⟩

theorem Refines.of_ok {change : Change} (h : change.apply t = t') (hd : t.SameData t') :
    t.Refines change (.ok t') (.ok t'.toForest) :=
  ⟨rfl, h ▸ hd, fun _ he => nomatch he⟩

/-! ## Trees and their forests -/

theorem not_mem_nodes_iff (n : NodeId) : (!t.contains n) = true ↔ n ∉ t.toForest.nodes := by
  rw [Bool.not_eq_true', ← Bool.not_eq_true]
  rfl

namespace WellLinked

variable (h : t.WellLinked kids)

include h

theorem toForest_of_sameData (hd : t'.SameData t) :
    t.toForest = { t'.toForest with children := kids } := by
  unfold toForest
  congr 1
  · ext n
    exact iff_of_eq (congrArg (· = true) (hd.contains n))
  · funext q
    exact h.children_eq q

theorem toForest_isParent_iff : t.toForest.IsParent p c ↔ t.parent c = p := by
  have hchild : ∀ q, c ∈ t.toForest.children q ↔ t.parent c = q ∧ q ≠ .null :=
    fun q => h.hasChild_iff
  unfold OrderedForest.IsParent
  simp only [hchild]
  constructor
  · rintro (⟨hp, -⟩ | ⟨rfl, hnone⟩)
    · exact hp
    · by_contra hp
      exact hnone _ ⟨rfl, hp⟩
  · rintro rfl
    by_cases hp : t.parent c = .null
    · exact .inr ⟨hp, fun q hq => hq.2 (hq.1.symm.trans hp)⟩
    · exact .inl ⟨rfl, hp⟩

theorem insertionFault?_eq :
    t.insertionFault? p c before = t.toForest.insertionFault? p c before := by
  classical
  unfold Tree.insertionFault? OrderedForest.insertionFault?
  by_cases hp : t.contains p = true
  · have hloop : (c = .root || t.wouldLoop p c) = true ↔ c = .root ∨ t.toForest.AtOrBelow c p := by
      rw [Bool.or_eq_true, decide_eq_true_iff, h.wouldLoop_iff hp]
      rfl
    have hchild : ∀ r, t.parent r ≠ p ↔ r ∉ t.toForest.children p := fun r =>
      not_congr (h.hasChild_iff.trans (and_iff_left (contains_ne_null hp))).symm
    refine if_congr (not_mem_nodes_iff p) rfl ?_
    refine if_congr (not_mem_nodes_iff c) rfl ?_
    refine if_congr hloop rfl ?_
    cases before with
    | none => rfl
    | some r => exact if_congr (not_mem_nodes_iff r) rfl (if_congr (hchild r) rfl rfl)
  -- the parent is looked at first
  · rw [if_pos (by simpa using hp), if_pos (show p ∉ t.toForest.nodes from hp)]

theorem removalFault?_eq : t.removalFault? p c = t.toForest.removalFault? p c := by
  classical
  unfold Tree.removalFault? OrderedForest.removalFault?
  refine if_congr (not_mem_nodes_iff c) rfl ?_
  exact if_congr (not_congr h.toForest_isParent_iff.symm) rfl rfl

/-! ## Moves -/

theorem update_erase_eq (hp : t.parent c = p) :
    update t.children p ((t.children p).erase c) = fun q => (kids q).erase c := by
  funext q
  by_cases hq : q = p
  · rw [hq, update_self, h.children_eq]
  · rw [update_of_ne hq, h.children_eq, h.erase_eq_self]
    exact fun e => hq (e.symm.trans hp)

/-- **Inserting into a tree is inserting into its forest.** -/
theorem insert_refines (p c : NodeId) (before : Option NodeId) :
    t.Refines (.insert p c before) (t.insert p c before) (t.toForest.insert p c before) := by
  have happly : (Change.insert p c before).apply t = (t.insert p c before).toOption.getD t := rfl
  unfold Tree.insert at happly ⊢
  unfold OrderedForest.insert
  rw [← h.insertionFault?_eq]
  cases hf : t.insertionFault? p c before with
  | some e =>
    rw [hf] at happly
    exact .of_error happly
  | none =>
    rw [hf] at happly
    dsimp only at happly ⊢
    split_ifs at happly ⊢ with hb
    · exact .of_ok happly (.refl t)
    · have hd : t.SameData (t.place p c before) := .place (.refl t) p c before
      have hmove : (t.place p c before).toForest = t.toForest.move p c before := by
        rw [(h.place hf hb).toForest_of_sameData hd]
        unfold OrderedForest.move
        simp only [toForest, h.children_eq]
      exact hmove ▸ .of_ok happly hd

/-- **Removing from a tree is removing from its forest.** -/
theorem remove_refines (p c : NodeId) :
    t.Refines (.remove p c) (t.remove p c) (t.toForest.remove p c) := by
  have happly : (Change.remove p c).apply t = (t.remove p c).toOption.getD t := rfl
  unfold Tree.remove at happly ⊢
  unfold OrderedForest.remove
  rw [← h.removalFault?_eq]
  cases hf : t.removalFault? p c with
  | some e =>
    rw [hf] at happly
    exact .of_error happly
  | none =>
    rw [hf] at happly
    obtain ⟨-, hp⟩ := removalFault?_eq_none.mp hf
    have hd : t.SameData (t.detach c) := .detach (.refl t) c
    have htaken : (t.detach c).toForest =
        { t.toForest with children := update t.children p ((t.children p).erase c) } := by
      rw [(h.detach c).toForest_of_sameData hd, h.update_erase_eq hp]
    exact htaken ▸ .of_ok happly hd

end WellLinked

theorem apply_insert_self (t : Tree) (p c : NodeId) :
    (Change.insert p c (some c)).apply t = t := by
  rw [Change.apply, Tree.insert]
  cases t.insertionFault? p c (some c) with
  | some e => rfl
  | none =>
    rw [if_pos rfl]
    rfl

/-- **A tree moves its nodes as an ordered forest does**, and refuses what the forest refuses. -/
theorem moves_refine (changes : List Change) (p c : NodeId) (before : Option NodeId) :
    (after changes).Refines (.insert p c before) ((after changes).insert p c before)
        ((after changes).toForest.insert p c before) ∧
      (after changes).Refines (.remove p c) ((after changes).remove p c)
        ((after changes).toForest.remove p c) ∧
      (Change.insert p c (some c)).apply (after changes) = after changes ∧
      ((after changes).toForest.IsParent p c ↔ (after changes).parent c = p) := by
  obtain ⟨kids, h⟩ := wellLinked_after changes
  exact ⟨h.insert_refines p c before, h.remove_refines p c, apply_insert_self _ p c,
    h.toForest_isParent_iff⟩

end Tree

end MarkupQuery
