import Mathlib.Data.Finset.Card
import Mathlib.Data.Finset.Filter
import MarkupQuery.Proofs.Tree.WellLinked
import MarkupQuery.Tree.Walk

/-!
# Ancestors

The relation of a node to the nodes below it, read off the lists of children, and the walks up over
parents.

* `Tree.HasChild`, `Tree.Below`: one step down, and one or more;
* `Tree.depth`: the number of nodes above a node, which bounds every way up;
* `WellLinked.induction_up`: from the children of a node to the node;
* **`WellLinked.isInclusiveAncestor_iff`**, **`WellLinked.isDescendantOf_iff`**: the climb over
  parents meets exactly the nodes above;
* `WellLinked.top_spec`, `WellLinked.below_iff_ne_top`: where it ends.
-/

namespace MarkupQuery.Tree

open Relation

variable {t : Tree} {kids : NodeId → List NodeId} {a b p c n : NodeId}

/-- The node `c` is a child of `p`. -/
def HasChild (t : Tree) (p c : NodeId) : Prop := c ∈ t.children p

/-- The node `n` lies strictly below `a`. -/
def Below (t : Tree) (a n : NodeId) : Prop := TransGen t.HasChild a n

open Classical in
/-- The number of nodes above a node. -/
noncomputable def depth (t : Tree) (n : NodeId) : ℕ :=
  (t.ids.toFinset.filter fun a => t.Below a n).card

theorem depth_le (t : Tree) (n : NodeId) : t.depth n ≤ t.size := by
  classical
  calc t.depth n ≤ t.ids.toFinset.card := Finset.card_filter_le _ _
    _ ≤ t.ids.length := List.toFinset_card_le _
    _ = t.size := by rw [ids, List.length_map, List.length_range]

namespace WellLinked

variable (h : t.WellLinked kids)

include h

/-! ## Steps -/

theorem hasChild_iff_mem : t.HasChild p c ↔ c ∈ kids p := by
  rw [HasChild, h.children_eq]

theorem hasChild_iff : t.HasChild p c ↔ t.parent c = p ∧ p ≠ .null := by
  rw [h.hasChild_iff_mem, h.mem_iff]

theorem hasChild_eq : t.HasChild = t.links.IsParent :=
  funext fun _ => funext fun _ => propext h.hasChild_iff

theorem founded : WellFounded t.HasChild := h.hasChild_eq ▸ h.forest.founded

theorem not_below_self : ¬ t.Below n n := fun hn => h.founded.transGen.irrefl.irrefl n hn

theorem contains_of_below (hn : t.Below a n) : t.contains a = true ∧ t.contains n = true := by
  have hstep : ∀ {p c}, t.HasChild p c → t.contains p = true ∧ t.contains c = true := by
    intro p c hc
    rw [h.hasChild_iff_mem] at hc
    exact ⟨h.contains_of_mem_kids hc, h.contains_of_mem hc⟩
  obtain ⟨b, hb, -⟩ := TransGen.head'_iff.mp hn
  obtain ⟨d, -, hd⟩ := TransGen.tail'_iff.mp hn
  exact ⟨(hstep hb).1, (hstep hd).2⟩

theorem children_eq_nil (hn : t.contains n = false) : t.children n = [] := by
  refine List.eq_nil_iff_forall_not_mem.mpr fun c hc => ?_
  rw [(h.contains_of_below (.single hc)).1] at hn
  cases hn

theorem below_iff : t.Below a n ↔ t.parent n ≠ .null ∧ ReflTransGen t.HasChild a (t.parent n) := by
  rw [Below, TransGen.tail'_iff]
  constructor
  · rintro ⟨p, ha, hp⟩
    obtain ⟨rfl, hp⟩ := h.hasChild_iff.mp hp
    exact ⟨hp, ha⟩
  · rintro ⟨hn, ha⟩
    exact ⟨_, ha, h.hasChild_iff.mpr ⟨rfl, hn⟩⟩

theorem below_total (ha : t.Below a n) (hb : t.Below b n) : a = b ∨ t.Below a b ∨ t.Below b a := by
  induction n using h.founded.induction with
  | h n ih =>
    obtain ⟨hn, ha⟩ := h.below_iff.mp ha
    obtain ⟨-, hb⟩ := h.below_iff.mp hb
    rcases reflTransGen_iff_eq_or_transGen.mp ha with ea | ha
    · rcases reflTransGen_iff_eq_or_transGen.mp hb with eb | hb
      · exact .inl (ea.symm.trans eb)
      · exact .inr (.inr (ea ▸ hb))
    · rcases reflTransGen_iff_eq_or_transGen.mp hb with eb | hb
      · exact .inr (.inl (eb ▸ ha))
      · exact ih _ (h.hasChild_iff.mpr ⟨rfl, hn⟩) ha hb

theorem atOrBelow_total (ha : ReflTransGen t.HasChild a n) (hb : ReflTransGen t.HasChild b n) :
    a = b ∨ t.Below a b ∨ t.Below b a := by
  rcases reflTransGen_iff_eq_or_transGen.mp ha with rfl | ha
  · exact (reflTransGen_iff_eq_or_transGen.mp hb).imp id .inr
  rcases reflTransGen_iff_eq_or_transGen.mp hb with rfl | hb
  · exact .inr (.inl ha)
  · exact h.below_total ha hb

/-! ## Depth -/

theorem depth_lt (hc : t.HasChild p c) : t.depth p < t.depth c := by
  classical
  refine Finset.card_lt_card (Finset.ssubset_iff_subset_ne.mpr ⟨?_, fun e => ?_⟩)
  · exact Finset.monotone_filter_right _ fun _ _ ha => TransGen.tail ha hc
  · have hp : p ∈ t.ids.toFinset.filter fun a => t.Below a c := by
      rw [Finset.mem_filter, List.mem_toFinset, ← contains_iff_mem_ids]
      exact ⟨(h.contains_of_below (.single hc)).1, .single hc⟩
    rw [← e, Finset.mem_filter] at hp
    exact h.not_below_self hp.2

theorem induction_up {P : NodeId → Prop} (ih : ∀ p, (∀ c, t.HasChild p c → P c) → P p)
    (n : NodeId) : P n := by
  induction hk : t.size - t.depth n using Nat.strong_induction_on generalizing n with
  | h k hind =>
    refine ih n fun c hc => hind _ ?_ c rfl
    have h₁ := h.depth_lt hc
    have h₂ := t.depth_le c
    omega

/-! ## Climbing -/

theorem climbsTo_iff {fuel : ℕ} (hf : t.depth n < fuel) :
    t.climbsTo a fuel n = true ↔ n ≠ .null ∧ ReflTransGen t.HasChild a n := by
  induction fuel generalizing n with
  | zero => exact absurd hf (Nat.not_lt_zero _)
  | succ fuel ih =>
    rw [climbsTo]
    by_cases hn : n = .null
    · simp [hn]
    rw [if_neg hn]
    by_cases ha : n = a
    · rw [if_pos ha, ha]
      simp [ha ▸ hn, ReflTransGen.refl]
    rw [if_neg ha, reflTransGen_iff_eq_or_transGen]
    have hb := h.below_iff (a := a) (n := n)
    by_cases hp : t.parent n = .null
    · rw [hp] at hb ⊢
      have hc : t.climbsTo a fuel .null = false := by cases fuel <;> simp [climbsTo]
      rw [hc]
      simp [hn, ha, show ¬ TransGen t.HasChild a n from fun h => (hb.mp h).1 rfl]
    · have hlt := h.depth_lt (h.hasChild_iff.mpr ⟨rfl, hp⟩)
      rw [ih (by omega), ← hb]
      simp [hn, ha, Below]

/-- **The climb over parents meets the node and all nodes above it.** -/
theorem isInclusiveAncestor_iff :
    t.isInclusiveAncestor a n = true ↔ n ≠ .null ∧ ReflTransGen t.HasChild a n :=
  h.climbsTo_iff (Nat.lt_succ_of_le (t.depth_le n))

theorem isDescendantOf_iff : t.isDescendantOf n a = true ↔ t.Below a n := by
  rw [isDescendantOf, h.isInclusiveAncestor_iff, h.below_iff]

theorem mem_filter_ids : n ∈ t.ids.filter (t.isDescendantOf · a) ↔ t.Below a n := by
  rw [List.mem_filter, h.isDescendantOf_iff, ← contains_iff_mem_ids]
  exact and_iff_right_of_imp fun hn => (h.contains_of_below hn).2

/-! ## The top -/

theorem topFrom_spec {fuel : ℕ} (hf : t.depth n ≤ fuel) :
    t.parent (t.topFrom fuel n) = .null ∧ ReflTransGen t.HasChild (t.topFrom fuel n) n := by
  induction fuel generalizing n with
  | zero =>
    rw [topFrom]
    refine ⟨?_, .refl⟩
    by_contra hp
    have hlt := h.depth_lt (h.hasChild_iff.mpr ⟨rfl, hp⟩)
    omega
  | succ fuel ih =>
    rw [topFrom]
    split_ifs with hp
    · exact ⟨hp, .refl⟩
    · have hc := h.hasChild_iff.mpr ⟨rfl, hp⟩
      have hlt := h.depth_lt hc
      obtain ⟨hnull, hup⟩ := ih (n := t.parent n) (by omega)
      exact ⟨hnull, hup.tail hc⟩

/-- **The climb to the top ends at a node without parent.** -/
theorem top_spec (n : NodeId) :
    t.parent (t.top n) = .null ∧ ReflTransGen t.HasChild (t.top n) n :=
  h.topFrom_spec (t.depth_le n)

theorem below_iff_ne_top {top : NodeId} (htop : t.parent top = .null) (hn : t.Below top n)
    (ha : t.Below a n) : t.Below top a ↔ a ≠ top := by
  have hnone : ¬ t.Below a top := fun hb => (h.below_iff.mp hb).1 htop
  constructor
  · rintro hb rfl
    exact hnone hb
  · intro hne
    rcases h.below_total ha hn with e | hb | hb
    · exact absurd e hne
    · exact absurd hb hnone
    · exact hb

end WellLinked

end MarkupQuery.Tree
