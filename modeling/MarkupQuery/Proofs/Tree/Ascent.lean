import MarkupQuery.Proofs.Tree.Arena
import MarkupQuery.Proofs.Tree.Walks

/-!
# Up and down

Whether one node lies below another is asked in two ways: upward, over the links to parents, and
downward, over first children and next siblings. In a tree that comes of changes both ways give the
same answer.

* `Tree.Ascent`: the way up from a node, with **`WellLinked.isInclusiveAncestor_iff_mem`** and
  **`WellLinked.isDescendantOf_iff_mem`**: a climb looks for a node on it;
* `Tree.ChildStep`: one step down along the links, with **`WellLinked.childStep_iff`**;
* `WellLinked.mem_takeWhile_iff`: what the way up meets before it comes to a node;
* `Tree.ViewsAgree`, **`Tree.viewsAgree_after`**: the answers upward and those downward.
-/

namespace MarkupQuery.Tree

open Relation

variable {t : Tree} {kids : NodeId → List NodeId} {up : List NodeId} {a b p c n m : NodeId}

/-! ## The way up -/

/-- The way up from a node: the node itself, its parent, and so on until there is none. An unknown
id has itself on its way. -/
inductive Ascent (t : Tree) : NodeId → List NodeId → Prop
  | top : Ascent t .null []
  | step {n : NodeId} {up : List NodeId} (hn : n ≠ .null) (hu : Ascent t (t.parent n) up) :
      Ascent t n (n :: up)

namespace Ascent

theorem tail (hu : t.Ascent n up) : t.Ascent (t.parent n) up.tail := by
  cases hu with
  | top => exact .top
  | step _ hu => exact hu

theorem length_le (hu : t.Ascent n up) {k : ℕ} (hk : t.parent^[k] n = .null) : up.length ≤ k := by
  induction hu generalizing k with
  | top => exact Nat.zero_le _
  | step hn _ ih =>
    cases k with
    | zero => exact absurd hk hn
    | succ k => exact Nat.succ_le_succ (ih hk)

theorem climbsTo_iff (hu : t.Ascent n up) {fuel : ℕ} (hf : up.length ≤ fuel) :
    t.climbsTo a fuel n = true ↔ a ∈ up := by
  induction hu generalizing fuel with
  | top => cases fuel <;> simp [climbsTo]
  | @step n up hn _ ih =>
    obtain ⟨fuel, rfl⟩ := Nat.exists_eq_add_one_of_ne_zero (Nat.ne_zero_of_lt hf)
    rw [climbsTo, if_neg hn, List.mem_cons, ← ih (Nat.le_of_succ_le_succ hf)]
    split_ifs with ha
    · exact iff_of_true rfl (.inl ha.symm)
    · exact (or_iff_right fun e => ha e.symm).symm

end Ascent

namespace WellLinked

variable (h : t.WellLinked kids)

include h

theorem exists_ascent (n : NodeId) : ∃ up, t.Ascent n up := by
  induction n using h.founded.induction with
  | h n ih =>
    by_cases hn : n = .null
    · exact ⟨[], hn ▸ .top⟩
    · by_cases hp : t.parent n = .null
      · exact ⟨[n], .step hn (hp ▸ .top)⟩
      · obtain ⟨up, hu⟩ := ih _ (h.hasChild_iff.mpr ⟨rfl, hp⟩)
        exact ⟨n :: up, .step hn hu⟩

/-- **A node is looked for on the whole way up.** -/
theorem isInclusiveAncestor_iff_mem (hu : t.Ascent n up) :
    t.isInclusiveAncestor a n = true ↔ a ∈ up :=
  hu.climbsTo_iff (Nat.le_succ_of_le (hu.length_le (h.iterate_parent n)))

theorem isDescendantOf_iff_mem (hu : t.Ascent n up) :
    t.isDescendantOf n a = true ↔ a ∈ up.tail :=
  h.isInclusiveAncestor_iff_mem hu.tail

theorem mem_tail_iff (hu : t.Ascent n up) : a ∈ up.tail ↔ t.Below a n := by
  rw [← h.isDescendantOf_iff_mem hu, h.isDescendantOf_iff]

theorem mem_takeWhile_iff (hu : t.Ascent n up) (ha : a ∈ up) :
    m ∈ up.takeWhile (· ≠ a) ↔ m ∈ up ∧ t.Below a m := by
  induction hu with
  | top => exact absurd ha List.not_mem_nil
  | @step n up hn hu ih =>
    have habove : ∀ {x}, x ∈ up → t.Below x n := (h.mem_tail_iff (.step hn hu)).mp
    by_cases hna : n = a
    · have hnone : ¬ (m ∈ n :: up ∧ t.Below a m) := by
        rintro ⟨hm, ham⟩
        rcases List.mem_cons.mp hm with rfl | hm
        · exact h.not_below_self (hna ▸ ham)
        · exact h.not_below_self (ham.trans (hna ▸ habove hm))
      rw [List.takeWhile_cons_of_neg (by simpa using hna)]
      exact iff_of_false List.not_mem_nil hnone
    · have ha' : a ∈ up := (List.mem_cons.mp ha).resolve_left fun e => hna e.symm
      have han : t.Below a n := habove ha'
      rw [List.takeWhile_cons_of_pos (by simpa using hna), List.mem_cons, List.mem_cons, ih ha',
        or_and_right]
      exact or_congr_left (and_iff_left_of_imp fun e => e ▸ han).symm

end WellLinked

/-! ## The way down -/

/-- One step down from `p` along the links: to its first child, or to the sibling after a child that
has been reached. -/
inductive ChildStep (t : Tree) (p : NodeId) : NodeId → Prop
  | first (hc : t.firstChild p ≠ .null) : ChildStep t p (t.firstChild p)
  | next {c : NodeId} (hc : ChildStep t p c) (hn : t.nextSibling c ≠ .null) :
      ChildStep t p (t.nextSibling c)

namespace WellLinked

variable (h : t.WellLinked kids)

include h

/-- **The links lead down to the children of a node.** -/
theorem childStep_iff : t.ChildStep p c ↔ t.HasChild p c := by
  constructor
  · intro hc
    induction hc with
    | first hc => exact h.hasChild_firstChild hc
    | next _ hn ih =>
      rw [h.hasChild_iff_mem] at ih ⊢
      exact h.nextSibling_mem ih hn
  · -- along the list of children, from a child that the links lead to
    have key : ∀ {l₁ l₂ : List NodeId} {c}, kids p = l₁ ++ c :: l₂ → t.ChildStep p c →
        ∀ d ∈ c :: l₂, t.ChildStep p d := by
      intro l₁ l₂
      induction l₂ generalizing l₁ with
      | nil => exact fun _ hc => by simpa using hc
      | cons d l₂ ih =>
        intro c hk hc
        have hk' := hk.trans (List.append_cons _ _ _)
        have hd : t.nextSibling c = d := h.nextSibling_eq hk
        have hne : t.nextSibling c ≠ .null :=
          hd ▸ h.forest.ne_null (p := p) (by rw [hk']; simp)
        exact List.forall_mem_cons.mpr ⟨hc, ih hk' (hd ▸ hc.next hne)⟩
    rw [h.hasChild_iff_mem]
    intro hc
    have hfirst := h.firstChild_eq p
    cases hk : kids p with
    | nil => exact absurd (hk ▸ hc) List.not_mem_nil
    | cons d l =>
      rw [h.children_eq, hk, List.headD_cons] at hfirst
      have hne : t.firstChild p ≠ .null := by
        rw [hfirst]
        exact h.forest.ne_null (p := p) (by rw [hk]; simp)
      exact key (hk.trans (List.nil_append _).symm) (hfirst ▸ .first hne) c (hk ▸ hc)

theorem childStep_eq : t.ChildStep = t.HasChild := by
  funext p c
  exact propext h.childStep_iff

end WellLinked

/-! ## Both views -/

/-- What the links upward tell of `a` and `b` and what the links downward tell, where `up` is the way
up from `b`. -/
structure ViewsAgree (t : Tree) (a b : NodeId) (up : List NodeId) : Prop where
  /-- The climb from a node looks for the other on the whole way up. -/
  climb : t.isInclusiveAncestor a b = true ↔ a ∈ up
  /-- The climb from its parent looks on the rest of the way. -/
  climb_parent : t.isDescendantOf b a = true ↔ a ∈ up.tail
  /-- The nodes above are those from which steps lead down. -/
  descendant : t.isDescendantOf b a = true ↔ TransGen t.ChildStep a b
  /-- The node itself counts as one above, known or not, unless it is null. -/
  inclusive : t.isInclusiveAncestor a b = true ↔
    (a = b ∧ b ≠ .null) ∨ t.isDescendantOf b a = true
  /-- The nodes attached to the document are those to which steps lead down from its node. -/
  connected : t.isConnected b = true ↔ b = .root ∨ TransGen t.ChildStep .root b
  /-- The elements found below a node are those with nothing but elements on the way up to it. -/
  visible : b ∈ t.descendants a ↔ t.isDescendantOf b a = true ∧ t.isElement b = true ∧
    ∀ m ∈ up.tail.takeWhile (· ≠ a), t.isElement m = true

namespace WellLinked

variable (h : t.WellLinked kids)

include h

theorem isInclusiveAncestor_iff_or : t.isInclusiveAncestor a b = true ↔
    (a = b ∧ b ≠ .null) ∨ t.Below a b := by
  rw [h.isInclusiveAncestor_iff, reflTransGen_iff_eq_or_transGen, and_or_left]
  refine or_congr ⟨fun hb => ⟨hb.2.symm, hb.1⟩, fun hb => ⟨hb.2, hb.1.symm⟩⟩ ?_
  exact and_iff_right_of_imp fun hab => contains_ne_null (h.contains_of_below hab).2

theorem visible_iff_takeWhile (hu : t.Ascent b up) : t.Visible a b ↔
    t.Below a b ∧ t.isElement b = true ∧
      ∀ m ∈ up.tail.takeWhile (· ≠ a), t.isElement m = true := by
  rw [Visible, and_left_comm]
  refine and_congr_right fun hab => and_congr_right fun _ => forall_congr' fun m => ?_
  rw [h.mem_takeWhile_iff hu.tail ((h.mem_tail_iff hu).mpr hab), h.mem_tail_iff hu, and_imp]
  exact Imp.swap

theorem viewsAgree (a : NodeId) (hu : t.Ascent b up) : t.ViewsAgree a b up where
  climb := h.isInclusiveAncestor_iff_mem hu
  climb_parent := h.isDescendantOf_iff_mem hu
  descendant := by rw [h.isDescendantOf_iff, h.childStep_eq, Below]
  inclusive := by rw [h.isDescendantOf_iff, h.isInclusiveAncestor_iff_or]
  connected := by
    rw [isConnected, h.isInclusiveAncestor_iff_or, h.childStep_eq, Below]
    exact or_congr_left ⟨fun hb => hb.1.symm, fun hb => ⟨hb.symm, by rw [hb]; decide⟩⟩
  visible := by rw [h.isDescendantOf_iff, h.mem_descendants, h.visible_iff_takeWhile hu]

end WellLinked

/-- **Upward and downward links tell the same.** -/
theorem viewsAgree_after (changes : List Change) (a b : NodeId) :
    ∃ up, (after changes).Ascent b up ∧ (after changes).ViewsAgree a b up := by
  obtain ⟨kids, h⟩ := wellLinked_after changes
  obtain ⟨up, hu⟩ := h.exists_ascent b
  exact ⟨up, hu, h.viewsAgree a hu⟩

end MarkupQuery.Tree
