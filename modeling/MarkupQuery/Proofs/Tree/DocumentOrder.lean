import MarkupQuery.Proofs.Query.Targets
import MarkupQuery.Proofs.Tree.Walks

/-!
# Document order

A node comes before the nodes below it, and before all that is at or below its later siblings. The
list of a subtree keeps this order, so that a search through it finds the first node of its kind.

* `Tree.Precedes`: the order, with **`WellLinked.not_precedes_of_precedes`**: of two nodes at most
  one comes first;
* **`WellLinked.pairwise_preorder`**: a subtree is listed in this order;
* `Tree.IsFirst`, **`WellLinked.find?_preorder_eq_some`**: the first node on which a condition
  holds.
-/

namespace MarkupQuery.Tree

open Relation

variable {t : Tree} {kids : NodeId → List NodeId} {a b c d n : NodeId} {p : NodeId → Bool}

/-- In document order `a` comes before `b`: it lies above `b`, or the two are at or below siblings
of which that of `a` is the earlier one. -/
def Precedes (t : Tree) (a b : NodeId) : Prop :=
  t.Below a b ∨ ∃ c d, TransGen t.NextTo c d ∧ ReflTransGen t.HasChild c a ∧
    ReflTransGen t.HasChild d b

/-- Of the nodes at or below `top`, `n` is the first one on which `p` holds. -/
structure IsFirst (t : Tree) (top : NodeId) (p : NodeId → Bool) (n : NodeId) : Prop where
  at_or_below : ReflTransGen t.HasChild top n
  holds : p n = true
  precedes : ∀ m, ReflTransGen t.HasChild top m → p m = true → m = n ∨ t.Precedes n m

namespace WellLinked

variable (h : t.WellLinked kids)

include h

/-! ## The order -/

theorem not_below_siblings (hcd : TransGen t.NextTo c d) (hc : ReflTransGen t.HasChild c n) :
    ¬ ReflTransGen t.HasChild d n := by
  have hne : c ≠ d := by
    rintro rfl
    exact h.not_nextTo_self hcd
  have hdown : ¬ t.Below c d := fun hb => h.not_below_self ((h.below_iff_of_nextTo hcd).mpr hb)
  have hup : ¬ t.Below d c := fun hb => h.not_below_self ((h.below_iff_of_nextTo hcd).mp hb)
  exact fun hd => (h.atOrBelow_total hc hd).elim hne fun hb => hb.elim hdown hup

theorem not_precedes_of_precedes (hab : t.Precedes a b) : ¬ t.Precedes b a := by
  rcases hab with hab | ⟨c, d, hcd, hca, hdb⟩
  · rintro (hba | ⟨c, d, hcd, hcb, hda⟩)
    · exact h.not_below_self (hab.trans hba)
    · exact h.not_below_siblings hcd hcb (hda.trans hab.to_reflTransGen)
  · rintro (hba | ⟨c', d', hcd', hcb, hda⟩)
    · exact h.not_below_siblings hcd hca (hdb.trans hba.to_reflTransGen)
    -- `a` is at or below `c` and `d'`, so that one of these two is at or above the other
    · rcases h.atOrBelow_total hca hda with rfl | hup | hdown
      · exact h.not_below_siblings (hcd'.trans hcd) hcb hdb
      · have hcc' : t.Below c c' := (h.below_iff_of_nextTo hcd').mpr hup
        exact h.not_below_siblings hcd (hcc'.to_reflTransGen.trans hcb) hdb
      · have hdd' : t.Below d' d := (h.below_iff_of_nextTo hcd).mp hdown
        exact h.not_below_siblings hcd' hcb (hdd'.to_reflTransGen.trans hdb)

/-! ## Lists of subtrees -/

theorem pairwise_preorder (n : NodeId) : (t.preorder n).Pairwise t.Precedes := by
  induction n using h.induction_up with
  | ih n ih =>
    by_cases hn : t.contains n = true
    · have hbelow : ∀ c ∈ t.children n, ∀ m ∈ t.preorder c, ReflTransGen t.HasChild c m :=
        fun c _ m hm => (h.mem_preorder.mp hm).2
      rw [h.preorder_eq hn, List.pairwise_cons, List.pairwise_flatMap]
      refine ⟨fun m hm => ?_, ih, ?_⟩
      · obtain ⟨c, hc, hm⟩ := List.mem_flatMap.mp hm
        exact .inl (TransGen.head' hc (hbelow c hc m hm))
      · refine (h.pairwise_children n).imp_of_mem fun {c d} hc hd hcd x hx y hy => ?_
        exact .inr ⟨c, d, hcd, hbelow c hc x hx, hbelow d hd y hy⟩
    · rw [preorder_eq_nil (Bool.eq_false_iff.mpr hn)]
      exact .nil

/-- **A search through a subtree finds the first node on which a condition holds.** -/
theorem find?_preorder_eq_some {top : NodeId} (htop : t.contains top = true) :
    (t.preorder top).find? p = some n ↔ t.IsFirst top p n := by
  have hmem : ∀ {m}, m ∈ t.preorder top ↔ ReflTransGen t.HasChild top m :=
    h.mem_preorder.trans (and_iff_right htop)
  have hfirst : ∀ {m}, (t.preorder top).find? p = some m → t.IsFirst top p m := by
    intro m hm
    obtain ⟨hp, front, rest, hlist, hfront⟩ := List.find?_eq_some_iff_append.mp hm
    have hsorted := h.pairwise_preorder top
    rw [hlist, List.pairwise_append, List.pairwise_cons] at hsorted
    refine ⟨hmem.mp (List.mem_of_find?_eq_some hm), hp, fun x hx hpx => ?_⟩
    rw [← hmem, hlist, List.mem_append, List.mem_cons] at hx
    rcases hx with hx | hx | hx
    · have hno := hfront x hx
      rw [hpx] at hno
      cases hno
    · exact .inl hx
    · exact .inr (hsorted.2.1.1 x hx)
  refine ⟨hfirst, fun hn => ?_⟩
  obtain ⟨m, hm⟩ : ∃ m, (t.preorder top).find? p = some m := by
    rw [← Option.isSome_iff_exists, List.find?_isSome]
    exact ⟨n, hmem.mpr hn.at_or_below, hn.holds⟩
  have hm' := hfirst hm
  rcases hn.precedes m hm'.at_or_below hm'.holds with rfl | hnm
  · exact hm
  rcases hm'.precedes n hn.at_or_below hn.holds with rfl | hmn
  · exact hm
  · exact absurd hmn (h.not_precedes_of_precedes hnm)

end WellLinked

end MarkupQuery.Tree
