import MarkupQuery.Proofs.Query.Covering

/-!
# Narrower contexts

A query below a visible element, instead of the context itself, sees fewer nodes, and loses what is
led to from outside. It finds nothing new. What is left comes in the same order, unless there are
several alternatives.

* `Nested.sublist`, `WellLinked.descendants_eq_below`: the visible nodes below an element are those
  of the context that lie below it;
* `Alternative.Matches.widen`: a chain below the element is one below the context;
* **`Selector.all_narrowed`**: what is left of an answer.
-/

namespace MarkupQuery

open Relation

theorem Nested.sublist {d : NodeId → List NodeId} {vs : List NodeId} (hv : Nested d vs) :
    ∀ a ∈ vs, (d a).Sublist vs := by
  induction hv with
  | nil => exact fun a ha => absurd ha List.not_mem_nil
  | @node n rest hd hr ihd ihr =>
    intro a ha
    rcases List.mem_cons.mp ha with rfl | ha
    · exact (List.sublist_append_left _ _).cons _
    rcases List.mem_append.mp ha with ha | ha
    · exact ((ihd a ha).trans (List.sublist_append_left _ _)).cons _
    · exact ((ihr a ha).trans (List.sublist_append_right _ _)).cons _

variable {t : Tree} {kids : NodeId → List NodeId} {c e n : NodeId}

namespace Tree.WellLinked

variable (h : t.WellLinked kids) (he : e = c ∨ t.Visible c e)

include h he

theorem descendants_sublist : (t.descendants e).Sublist (t.descendants c) := by
  rcases he with rfl | he
  · exact List.Sublist.refl _
  · exact (h.nested_descendants c).sublist e (h.mem_descendants.mpr he)

theorem visible_widen (hn : t.Visible e n) : t.Visible c n := by
  rcases he with rfl | he
  · exact hn
  · exact h.visible_trans he hn

open Classical in
/-- **What is visible below an element** lies below it and is visible anyway. -/
theorem descendants_eq_below :
    t.descendants e = (t.descendants c).filter fun n => t.Below e n := by
  have hbelow : ∀ n ∈ t.descendants e, t.Below e n := fun n hn => (h.mem_descendants.mp hn).2.1
  have hsub : (t.descendants e).Sublist ((t.descendants c).filter fun n => t.Below e n) := by
    have hs := (h.descendants_sublist he).filter fun n => t.Below e n
    rwa [List.filter_eq_self.mpr fun n hn => decide_eq_true (hbelow n hn)] at hs
  have hmem : ∀ n, n ∈ t.descendants e ↔ n ∈ (t.descendants c).filter fun n => t.Below e n := by
    refine fun n => ⟨fun hn => hsub.subset hn, fun hn => ?_⟩
    obtain ⟨hc, hen⟩ := List.mem_filter.mp hn
    have hen := of_decide_eq_true hen
    rw [h.mem_descendants] at hc ⊢
    rcases he with rfl | he
    · exact hc
    · exact visible_of_below he.2.1 hc hen
  exact hsub.eq_of_length ((List.perm_ext_iff_of_nodup (h.nodup_descendants e)
    ((h.nodup_descendants c).filter _)).mpr hmem).length_eq

end Tree.WellLinked

theorem Alternative.Matches.widen {alt : Alternative} (h : t.WellLinked kids)
    (he : e = c ∨ t.Visible c e) (hn : alt.Matches t e n) : alt.Matches t c n :=
  hn.covered (fun _ => h.visible_widen he) (.refl t e alt)

open Classical in
/-- **A narrower context only loses nodes.** -/
theorem Selector.all_narrowed (changes : List Change) {c e : NodeId}
    (he : e = c ∨ e ∈ (Tree.after changes).descendants c) (s : Selector) :
    let t := Tree.after changes
    (∀ n ∈ (s.all t e).toList, n ∈ (s.all t c).toList) ∧
    (s.tail = [] → (s.all t e).toList.Sublist (s.all t c).toList) ∧
    (s.tail = [] → s.head.tail = [] →
      (s.all t e).toList = (s.all t c).toList.filter fun n => t.Below e n) := by
  intro t
  obtain ⟨kids, h⟩ : ∃ kids, t.WellLinked kids := Tree.wellLinked_after changes
  have he : e = c ∨ t.Visible c e := he.imp_right h.mem_descendants.mp
  refine ⟨fun n hn => ?_, fun hs => ?_, fun hs ha => ?_⟩
  · obtain ⟨alt, halt, hn⟩ := h.mem_all.mp hn
    exact h.mem_all.mpr ⟨alt, halt, hn.widen h he⟩
  · rw [h.all_of_single hs, h.all_of_single hs]
    refine ((h.descendants_sublist he).filter _).trans (List.monotone_filter_right _ fun n hn => ?_)
    exact decide_eq_true ((of_decide_eq_true hn).widen h he)
  · have hmatches : ∀ c, ∀ n ∈ t.descendants c,
        s.head.Matches t c n ↔ s.head.head.holdsAt t n = true := by
      intro c n hn
      rw [Alternative.Matches, ha]
      refine ⟨fun ⟨b, _, hb, hbn⟩ => hbn ▸ hb, fun hb => ⟨n, h.mem_descendants.mp hn, hb, rfl⟩⟩
    rw [h.all_of_single hs, h.all_of_single hs,
      List.filter_congr fun n hn => decide_eq_decide.mpr (hmatches e n hn),
      List.filter_congr fun n hn => decide_eq_decide.mpr (hmatches c n hn),
      h.descendants_eq_below he, List.filter_filter, List.filter_filter]
    exact List.filter_congr fun n _ => Bool.and_comm _ _

open Classical in
theorem Selector.all_narrowed_nested :
    let t := Tree.after [.createElement "div", .createElement "div",
      .insert .root (.slot 1) none, .insert (.slot 1) (.slot 2) none]
    let s : Selector := ⟨⟨⟨[.tag "div"]⟩, []⟩, []⟩
    .slot 1 ∈ t.descendants .root ∧
      (∀ n ∈ (s.all t (.slot 1)).toList, n ∈ (s.all t .root).toList) ∧
      (s.all t (.slot 1)).toList.Sublist (s.all t .root).toList ∧
      (s.all t (.slot 1)).toList = (s.all t .root).toList.filter fun n => t.Below (.slot 1) n := by
  intro t s
  have he : .slot 1 ∈ t.descendants .root := by decide
  obtain ⟨hmem, hsub, hbelow⟩ := Selector.all_narrowed _ (.inr he) s
  exact ⟨he, hmem, hsub rfl, hbelow rfl rfl⟩

end MarkupQuery
