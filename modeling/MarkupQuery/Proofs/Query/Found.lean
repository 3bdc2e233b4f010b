import Mathlib.Data.List.Induction
import Mathlib.Data.List.Nodup
import Mathlib.Data.Set.Function
import MarkupQuery.Query.Found

/-!
# What has been found

A collection of nodes is the answer to a list of candidates: each one once, in order of first
appearance, and no more than the limit allows. Collecting a list of candidates appends it.

* `eraseDups_filter`, `eraseDups_append_right`, `eraseDups_map`: repeats in a list of candidates;
* `atMost`: as many elements of a list as a limit allows;
* `Found.Holds`: the nodes found are the answer to a list of candidates;
* **`Found.Holds.add`**, **`Found.Holds.addWhere`**: candidates are appended;
* `Found.Holds.of_full`, `Found.Holds.known`: when nothing need be done for that.
-/

namespace MarkupQuery

variable {xs ys zs : List NodeId} {n : NodeId} {limit : Option ℕ} {f : Found}

/-! ## Repeats -/

section Repeats

variable {α : Type} [DecidableEq α] {as bs : List α} {a : α}

theorem eraseDups_append_of_subset (h : bs ⊆ as) : (as ++ bs).eraseDups = as.eraseDups := by
  rw [List.eraseDups_append, List.removeAll, List.filter_eq_nil_iff.mpr, List.eraseDups_nil,
    List.append_nil]
  intro b hb
  simpa using h hb

theorem eraseDups_concat (as : List α) (a : α) :
    (as ++ [a]).eraseDups = if a ∈ as then as.eraseDups else as.eraseDups ++ [a] := by
  split_ifs with ha
  · exact eraseDups_append_of_subset (List.cons_subset.mpr ⟨ha, List.nil_subset _⟩)
  · rw [List.eraseDups_append, List.removeAll, List.filter_cons_of_pos (by simpa using ha)]
    rfl

theorem nodup_eraseDups (as : List α) : as.eraseDups.Nodup := by
  induction as using List.reverseRecOn with
  | nil => exact List.nodup_nil
  | append_singleton as a ih =>
    rw [eraseDups_concat]
    split_ifs with ha
    · exact ih
    · refine List.nodup_append.mpr ⟨ih, List.nodup_singleton a, fun b hb c hc e => ha ?_⟩
      rw [← List.mem_singleton.mp hc, ← e]
      exact List.mem_eraseDups.mp hb

theorem eraseDups_of_nodup (h : as.Nodup) : as.eraseDups = as := by
  induction as with
  | nil => rfl
  | cons a as ih =>
    obtain ⟨ha, h⟩ := List.nodup_cons.mp h
    rw [List.eraseDups_cons, List.filter_eq_self.mpr, ih h]
    intro b hb
    simpa using fun e : b = a => ha (e ▸ hb)

theorem eraseDups_filter (p : α → Bool) (as : List α) :
    (as.filter p).eraseDups = as.eraseDups.filter p := by
  induction as using List.reverseRecOn with
  | nil => rfl
  | append_singleton as a ih =>
    rw [List.filter_append, eraseDups_concat]
    by_cases hp : p a = true
    · rw [List.filter_cons_of_pos hp, List.filter_nil, eraseDups_concat, ih]
      simp only [List.mem_filter, hp, and_true]
      split_ifs
      · rfl
      · rw [List.filter_append, List.filter_cons_of_pos hp, List.filter_nil]
    · rw [List.filter_cons_of_neg hp, List.filter_nil, List.append_nil, ih]
      split_ifs
      · rfl
      · rw [List.filter_append, List.filter_cons_of_neg hp, List.filter_nil, List.append_nil]

theorem eraseDups_append_right (as bs : List α) :
    (as ++ bs.eraseDups).eraseDups = (as ++ bs).eraseDups := by
  rw [List.eraseDups_append, List.eraseDups_append, List.removeAll, ← eraseDups_filter,
    eraseDups_of_nodup (nodup_eraseDups _), List.removeAll]

theorem eraseDups_map {β : Type} [DecidableEq β] {f : α → β} (hf : Set.InjOn f {a | a ∈ as}) :
    (as.map f).eraseDups = as.eraseDups.map f := by
  induction as using List.reverseRecOn with
  | nil => rfl
  | append_singleton as a ih =>
    have hmem : f a ∈ as.map f ↔ a ∈ as := by
      refine ⟨fun hm => ?_, List.mem_map_of_mem⟩
      obtain ⟨b, hb, e⟩ := List.mem_map.mp hm
      have hba : b = a := hf (List.mem_append_left _ hb) (by simp) e
      exact hba ▸ hb
    have ih := ih (hf.mono fun b hb => List.mem_append_left _ hb)
    rw [List.map_append, List.map_singleton, eraseDups_concat, eraseDups_concat]
    simp only [hmem, ih]
    split_ifs
    · rfl
    · rw [List.map_append, List.map_singleton]

end Repeats

/-! ## Limits -/

/-- As many elements of a list as a limit allows. -/
def atMost {α : Type} (limit : Option ℕ) (as : List α) : List α :=
  match limit with
  | some k => as.take k
  | none => as

theorem atMost_sublist {α : Type} (limit : Option ℕ) (as : List α) :
    (atMost limit as).Sublist as := by
  cases limit with
  | none => exact .refl as
  | some k => exact List.take_sublist k as

/-! ## Collections -/

namespace Found

/-- The nodes found are the first ones of a list of candidates, without repeats. -/
structure Holds (f : Found) (limit : Option ℕ) (xs : List NodeId) : Prop where
  limit_eq : f.limit = limit
  seen_iff : ∀ n, f.seen.contains n = true ↔ n ∈ f.nodes.toList
  nodes_eq : f.nodes.toList = atMost limit xs.eraseDups

theorem holds_upTo (limit : Option ℕ) : (upTo limit).Holds limit [] := by
  refine ⟨rfl, fun n => ?_, ?_⟩
  · simp [upTo]
  · cases limit <;> simp [upTo, atMost]

namespace Holds

variable (h : f.Holds limit xs)

include h

theorem congr (he : ys.eraseDups = xs.eraseDups) : f.Holds limit ys :=
  ⟨h.limit_eq, h.seen_iff, he ▸ h.nodes_eq⟩

theorem known (hs : ys ⊆ xs) : f.Holds limit (xs ++ ys) := h.congr (eraseDups_append_of_subset hs)

theorem nodes_of_none (hl : limit = none) : f.nodes.toList = xs.eraseDups := by
  rw [h.nodes_eq, hl]
  rfl

theorem isFull_iff : f.isFull = true ↔ ∃ k ∈ limit, k ≤ xs.eraseDups.length := by
  rw [isFull, h.limit_eq, ← Array.length_toList, h.nodes_eq]
  cases limit with
  | none => simp
  | some k =>
    simp only [atMost, Option.any_some, List.length_take, decide_eq_true_eq, Option.mem_def,
      Option.some.injEq, exists_eq_left', Nat.le_min, Nat.le_refl, true_and]

theorem of_full (hf : f.isFull = true) (ys : List NodeId) : f.Holds limit (xs ++ ys) := by
  obtain ⟨k, rfl, hk⟩ := h.isFull_iff.mp hf
  refine ⟨h.limit_eq, h.seen_iff, ?_⟩
  rw [h.nodes_eq, atMost, atMost, List.eraseDups_append, List.take_append_of_le_length hk]

theorem atMost_eq (hf : ¬ f.isFull = true) {zs : List NodeId}
    (hz : zs.length ≤ xs.eraseDups.length + 1) : atMost limit zs = zs := by
  cases hl : limit with
  | none => rfl
  | some k =>
    have hk : ¬ k ≤ xs.eraseDups.length := fun hk => hf (h.isFull_iff.mpr ⟨k, hl, hk⟩)
    exact List.take_of_length_le (by omega)

/-- **A node that is added is one more candidate.** -/
theorem add (hf : ¬ f.isFull = true) (n : NodeId) : (f.add n).Holds limit (xs ++ [n]) := by
  have hnodes : f.nodes.toList = xs.eraseDups := by
    rw [h.nodes_eq, h.atMost_eq hf (Nat.le_succ _)]
  have hmem : f.seen.contains n = true ↔ n ∈ xs := by
    rw [h.seen_iff, hnodes, List.mem_eraseDups]
  rw [Found.add]
  by_cases hn : n ∈ xs
  · rw [if_pos (hmem.mpr hn)]
    exact h.known (List.cons_subset.mpr ⟨hn, List.nil_subset _⟩)
  · rw [if_neg (mt hmem.mp hn)]
    refine ⟨h.limit_eq, fun m => ?_, ?_⟩
    · have := h.seen_iff m
      simp only [Std.HashSet.contains_insert, Bool.or_eq_true, beq_iff_eq, this, Array.toList_push,
        List.mem_append, List.mem_singleton]
      tauto
    · rw [eraseDups_concat, if_neg hn, h.atMost_eq hf (by simp), Array.toList_push, hnodes]

/-- **Collecting appends the nodes on which the condition holds.** -/
theorem addWhere (p : NodeId → Bool) (ns : List NodeId) :
    (f.addWhere p ns).Holds limit (xs ++ ns.filter p) := by
  induction ns generalizing f xs with
  | nil => exact (List.append_nil xs).symm ▸ h
  | cons n ns ih =>
    rw [Found.addWhere]
    by_cases hf : f.isFull = true
    · rw [if_pos hf]
      exact h.of_full hf _
    rw [if_neg hf]
    by_cases hp : p n = true
    · rw [if_pos hp, List.filter_cons_of_pos hp, List.append_cons]
      exact ih (h.add hf n)
    · rw [if_neg hp, List.filter_cons_of_neg hp]
      exact ih h

end Holds

end Found

end MarkupQuery
