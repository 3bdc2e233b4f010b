import MarkupQuery.Proofs.Tree.Ancestors
import MarkupQuery.Query.Targets

/-!
# What a combinator leads to

The relation of two nodes that a combinator stands for, and the set of targets computed for a list
of nodes.

* `Tree.NextTo`, `Combinator.Leads`;
* `WellLinked.nextTo_trans_iff`: later siblings are those further on in the list of children, with
  `WellLinked.nextTo_iff`, `WellLinked.pairwise_children` and `WellLinked.parent_eq_of_nextTo`;
* `Tree.Closed`: a set with every node's later siblings, the invariant of the early stop;
* **`WellLinked.contains_targets`**: the set holds exactly what the combinator leads to.
-/

namespace MarkupQuery

open Relation

/-! ## Relations -/

/-- The node `n` is the sibling right after `a`. -/
def Tree.NextTo (t : Tree) (a n : NodeId) : Prop := t.nextSibling a = n ∧ n ≠ .null

/-- The combinator leads from `a` to `n`. -/
def Combinator.Leads (t : Tree) : Combinator → NodeId → NodeId → Prop
  | descendant, a, n => t.Below a n
  | child, a, n => t.HasChild a n
  | adjacentSibling, a, n => t.NextTo a n
  | generalSibling, a, n => TransGen t.NextTo a n

namespace Tree

variable {t : Tree} {kids : NodeId → List NodeId} {p c n : NodeId} {l₁ l₂ : List NodeId}
  {set : Std.HashSet NodeId}

/-- The set holds the sibling after each of its members. -/
def Closed (t : Tree) (set : Std.HashSet NodeId) : Prop :=
  ∀ ⦃a b⦄, set.contains a = true → t.NextTo a b → set.contains b = true

theorem Closed.trans (hs : t.Closed set) {a b : NodeId} (ha : set.contains a = true)
    (hab : TransGen t.NextTo a b) : set.contains b = true := by
  induction hab with
  | single h => exact hs ha h
  | tail _ h ih => exact hs ih h

namespace WellLinked

variable (h : t.WellLinked kids)

include h

/-! ## Later siblings -/

theorem nextTo_iff (hk : kids p = l₁ ++ c :: l₂) : t.NextTo c n ↔ n ∈ l₂.head? := by
  rw [NextTo, h.nextSibling_eq hk]
  cases l₂ with
  | nil => simpa using fun e : NodeId.null = n => e.symm
  | cons d l₂ =>
    have hd : d ≠ .null := h.forest.ne_null (p := p) (by rw [hk]; simp)
    simpa using fun e : d = n => e ▸ hd

theorem nextTo_trans_iff (hk : kids p = l₁ ++ c :: l₂) : TransGen t.NextTo c n ↔ n ∈ l₂ := by
  rw [TransGen.head'_iff]
  simp only [h.nextTo_iff hk]
  induction l₂ generalizing l₁ c with
  | nil => simp
  | cons d l₂ ih =>
    have hk' := hk.trans (List.append_cons l₁ c (d :: l₂))
    have hlater : TransGen t.NextTo d n ↔ n ∈ l₂ := by
      rw [TransGen.head'_iff]
      simp only [h.nextTo_iff hk', ih hk']
    -- the first step leads to `d`, and there the way ends or goes on
    simp [reflTransGen_iff_eq_or_transGen, hlater]

theorem pairwise_children (p : NodeId) : (t.children p).Pairwise (TransGen t.NextTo) := by
  have key : ∀ {l₁ l₂ : List NodeId}, kids p = l₁ ++ l₂ → l₂.Pairwise (TransGen t.NextTo) := by
    intro l₁ l₂ hk
    induction l₂ generalizing l₁ with
    | nil => exact .nil
    | cons c l₂ ih =>
      exact .cons (fun n hn => (h.nextTo_trans_iff hk).mpr hn)
        (ih (hk.trans (List.append_cons _ _ _)))
  rw [h.children_eq]
  exact key (List.nil_append _).symm

theorem not_nextTo_of_orphan (hp : t.parent c = .null) : ¬ TransGen t.NextTo c n := by
  intro hn
  obtain ⟨b, ⟨rfl, hb⟩, -⟩ := TransGen.head'_iff.mp hn
  exact hb (h.forest.orphan hp).2

theorem not_nextTo_self : ¬ TransGen t.NextTo n n := by
  by_cases hp : t.parent n = .null
  · exact h.not_nextTo_of_orphan hp
  · obtain ⟨l₁, l₂, hk⟩ := h.exists_sides hp
    rw [h.nextTo_trans_iff hk]
    exact (h.forest.not_mem_sides hk).2

theorem parent_eq_of_nextTo (hn : TransGen t.NextTo c n) : t.parent n = t.parent c := by
  by_cases hp : t.parent c = .null
  · exact absurd hn (h.not_nextTo_of_orphan hp)
  · obtain ⟨l₁, l₂, hk⟩ := h.exists_sides hp
    have hm : n ∈ kids (t.parent c) := by
      rw [hk]
      exact List.mem_append_right _ (List.mem_cons_of_mem _ ((h.nextTo_trans_iff hk).mp hn))
    exact (h.mem_iff.mp hm).1

theorem below_iff_of_nextTo (hn : TransGen t.NextTo c n) {a : NodeId} :
    t.Below a c ↔ t.Below a n := by
  rw [h.below_iff, h.below_iff, h.parent_eq_of_nextTo hn]

/-- Siblings on the way are added, if those held already are held with all that follow them. -/
theorem contains_addFollowing (hk : kids p = l₁ ++ l₂)
    (hs : ∀ {a b}, a ∈ l₂ → set.contains a = true → TransGen t.NextTo a b →
      set.contains b = true) {fuel : ℕ} (hf : l₂.length ≤ fuel) :
    (t.addFollowing fuel (l₂.headD .null) set).contains n = true ↔
      set.contains n = true ∨ n ∈ l₂ := by
  induction l₂ generalizing l₁ fuel set with
  | nil => cases fuel <;> simp [addFollowing]
  | cons c l₂ ih =>
    obtain ⟨fuel, rfl⟩ := Nat.exists_eq_add_one_of_ne_zero (Nat.ne_zero_of_lt hf)
    have hnext := h.nextSibling_eq hk
    have hc : c ≠ .null := h.forest.ne_null (p := p) (by rw [hk]; simp)
    have hcl : c ∉ l₂ := (h.forest.not_mem_sides hk).2
    rw [List.headD_cons, addFollowing]
    by_cases hcs : set.contains c = true
    -- the walk stops, and what follows is in the set with `c`
    · rw [if_pos (by rw [hcs, Bool.or_true])]
      refine (or_iff_left_of_imp fun hm => ?_).symm
      rcases List.mem_cons.mp hm with rfl | hm
      · exact hcs
      · exact hs List.mem_cons_self hcs ((h.nextTo_trans_iff hk).mpr hm)
    · have hfalse : (decide (c = .null) || set.contains c) = false := by simp [hc, hcs]
      rw [if_neg (by rw [hfalse]; exact Bool.false_ne_true), hnext,
        ih (hk.trans (List.append_cons _ _ _)) ?_ (Nat.le_of_succ_le_succ hf),
        Std.HashSet.contains_insert, List.mem_cons]
      · simp only [Bool.or_eq_true, beq_iff_eq]
        tauto
      · intro a b ha has hab
        rw [Std.HashSet.contains_insert, Bool.or_eq_true, beq_iff_eq] at has ⊢
        rcases has with rfl | has
        · exact absurd ha hcl
        · exact .inr (hs (List.mem_cons_of_mem _ ha) has hab)

theorem contains_addFollowing_of_closed (hs : t.Closed set) (a : NodeId) :
    (t.addFollowing t.size (t.nextSibling a) set).contains n = true ↔
      set.contains n = true ∨ TransGen t.NextTo a n := by
  by_cases hp : t.parent a = .null
  · have hn : t.nextSibling a = .null := (h.forest.orphan hp).2
    have ha : ¬ TransGen t.NextTo a n := h.not_nextTo_of_orphan hp
    rw [hn]
    cases t.size <;> simp [addFollowing, ha]
  · obtain ⟨l₁, l₂, hk⟩ := h.exists_sides hp
    have hlen := h.length_sides_lt hk
    rw [h.nextSibling_eq hk, h.contains_addFollowing (hk.trans (List.append_cons _ _ _))
      (fun _ has hab => hs.trans has hab) (by omega), h.nextTo_trans_iff hk]

/-! ## Targets -/

/-- The targets of a node are added, and the set stays closed for later siblings. -/
theorem addTargets_spec {k : Combinator} (hd : k ≠ .descendant)
    (hs : k = .generalSibling → t.Closed set) (a : NodeId) :
    (∀ n, (k.addTargets t set a).contains n = true ↔
      set.contains n = true ∨ k.Leads t a n) ∧
    (k = .generalSibling → t.Closed (k.addTargets t set a)) := by
  cases k with
  | descendant => exact absurd rfl hd
  | child =>
    refine ⟨fun n => ?_, fun e => by cases e⟩
    rw [Combinator.addTargets, Std.HashSet.contains_insertMany_list, Bool.or_eq_true,
      List.contains_iff_mem]
    rfl
  | adjacentSibling =>
    refine ⟨fun n => ?_, fun e => by cases e⟩
    rw [Combinator.addTargets, Combinator.Leads, NextTo]
    split_ifs with hn
    · rw [hn]
      exact (or_iff_left fun e => e.2 e.1.symm).symm
    · rw [Std.HashSet.contains_insert, Bool.or_eq_true, beq_iff_eq, or_comm]
      exact or_congr Iff.rfl (and_iff_left_of_imp fun e => e ▸ hn).symm
  | generalSibling =>
    have hs := hs rfl
    have hmem : ∀ n, (Combinator.generalSibling.addTargets t set a).contains n = true ↔
        set.contains n = true ∨ TransGen t.NextTo a n :=
      fun n => h.contains_addFollowing_of_closed hs a
    refine ⟨hmem, fun _ b c hb hbc => ?_⟩
    rw [hmem] at hb ⊢
    exact hb.imp (fun hb => hs hb hbc) fun hb => hb.tail hbc

/-- **The targets are what the combinator leads to.** -/
theorem contains_targets {k : Combinator} (hd : k ≠ .descendant) (left : List NodeId) :
    (k.targets t left).contains n = true ↔ ∃ a ∈ left, k.Leads t a n := by
  have key : ∀ set : Std.HashSet NodeId, (k = .generalSibling → t.Closed set) →
      ((left.foldl (k.addTargets t) set).contains n = true ↔
        set.contains n = true ∨ ∃ a ∈ left, k.Leads t a n) := by
    induction left with
    | nil => simp
    | cons a left ih =>
      intro set hs
      obtain ⟨hmem, hs'⟩ := h.addTargets_spec hd hs a
      rw [List.foldl_cons, ih _ hs', hmem, or_assoc, List.exists_mem_cons_iff]
  rw [Combinator.targets, key ∅ fun _ a b ha => by simp at ha]
  simp

end WellLinked

end Tree

end MarkupQuery
