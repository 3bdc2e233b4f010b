import MarkupQuery.Proofs.Query.Covering

/-!
# Taking out what is no element

A text or a comment may be taken out of its parent without any element being lost from an answer. It
counts only as what stands between an element and the next sibling: an element that stood before it
can become the one right before the element that stood after it.

* `WellLinked.nextTo_trans_iff_sublist`: later siblings in a list of children;
* `WellLinked.descendants_detach`: the same elements are visible;
* `WellLinked.nextTo_detach`, `WellLinked.leads_detach_iff`: where the combinators lead afterwards,
  with `WellLinked.covered_detach`, `WellLinked.detach_covered`;
* **`Selector.all_of_removed`**: what becomes of an answer.
-/

namespace MarkupQuery

open Relation

variable {t t' : Tree} {kids : NodeId → List NodeId} {context p x a n : NodeId} {k : Combinator}

/-! ## Data -/

namespace Tree.SameData

variable (hd : t.SameData t')

include hd

theorem isElement (n : NodeId) : t'.isElement n = t.isElement n := by
  rw [Tree.isElement, Tree.isElement, hd.element?]

theorem holdsAt (c : Compound) (n : NodeId) : c.holdsAt t' n = c.holdsAt t n := by
  have htag : t'.tag? n = t.tag? n := congrArg (Option.map _) (hd.element? n)
  have hattribute : ∀ name, t'.attribute? n name = t.attribute? n name := fun name =>
    congrArg (Option.bind · _) (hd.element? n)
  have hcount : t'.attributeCount n = t.attributeCount n :=
    congrArg (fun e : Option Element => (e.map _).getD 0) (hd.element? n)
  have hparts : (fun part : Simple => part.holdsAt t' n) = fun part => part.holdsAt t n := by
    funext part
    cases part <;> simp only [Simple.holdsAt, carriesId, htag, hattribute, hcount]
  rw [Compound.holdsAt, Compound.holdsAt, hd.isElement, hparts]

end Tree.SameData

theorem Tree.Visible.ne (hn : t.Visible context n) (hx : t.isElement x = false) : n ≠ x := by
  rintro rfl
  rw [hn.1] at hx
  cases hx

namespace Tree.WellLinked

variable (h : t.WellLinked kids)

include h

/-! ## Links -/

theorem nextTo_trans_iff_sublist : TransGen t.NextTo a n ↔ ∃ p, [a, n].Sublist (t.children p) := by
  constructor
  · intro hn
    by_cases hp : t.parent a = .null
    · exact absurd hn (h.not_nextTo_of_orphan hp)
    · obtain ⟨l₁, l₂, hk⟩ := h.exists_sides hp
      have hmem : n ∈ l₂ := (h.nextTo_trans_iff hk).mp hn
      refine ⟨t.parent a, ?_⟩
      rw [h.children_eq, hk]
      exact ((List.singleton_sublist.mpr hmem).cons_cons a).trans (List.sublist_append_right _ _)
  · rintro ⟨p, hs⟩
    exact List.pairwise_pair.mp ((h.pairwise_children p).sublist hs)

theorem children_detach (x p : NodeId) : (t.detach x).children p = (t.children p).erase x := by
  rw [(h.detach x).children_eq, h.children_eq]

theorem nextTo_trans_detach_iff (ha : a ≠ x) (hn : n ≠ x) :
    TransGen (t.detach x).NextTo a n ↔ TransGen t.NextTo a n := by
  rw [(h.detach x).nextTo_trans_iff_sublist, h.nextTo_trans_iff_sublist]
  refine exists_congr fun p => ?_
  rw [h.children_detach]
  refine ⟨fun hs => hs.trans List.erase_sublist, fun hs => ?_⟩
  have hx : [a, n].erase x = [a, n] := List.erase_of_not_mem (by simp [ha.symm, hn.symm])
  exact hx ▸ hs.erase x

theorem nextTo_detach (ha : a ≠ x) (hn : n ≠ x) (han : t.NextTo a n) :
    (t.detach x).NextTo a n := by
  have hp : t.parent a ≠ .null := fun hp => h.not_nextTo_of_orphan hp (.single han)
  obtain ⟨l₁, l₂, hk⟩ := h.exists_sides hp
  obtain ⟨l₂, rfl⟩ : ∃ l, l₂ = n :: l := by
    have hhead := (h.nextTo_iff hk).mp han
    exact ⟨l₂.tail, (List.cons_head?_tail hhead).symm⟩
  have herase : ∃ l₃ l₄, (kids (t.parent a)).erase x = l₃ ++ a :: n :: l₄ := by
    rw [hk]
    by_cases hx : x ∈ l₁
    · exact ⟨l₁.erase x, l₂, List.erase_append_left _ hx⟩
    · refine ⟨l₁, l₂.erase x, ?_⟩
      rw [List.erase_append_right _ hx, List.erase_cons_tail (by simpa using ha),
        List.erase_cons_tail (by simpa using hn)]
  obtain ⟨l₃, l₄, hk'⟩ := herase
  exact ((h.detach x).nextTo_iff hk').mpr rfl

/-! ## Elements -/

/-- **Taking out a node that is no element leaves the same elements visible.** -/
theorem descendants_detach (hx : t.isElement x = false) :
    (t.detach x).descendants = t.descendants := by
  have hd : t.SameData (t.detach x) := (SameData.refl t).detach x
  funext n
  induction n using h.induction_up with
  | ih n ih =>
    have hchild : ∀ c ∈ (t.children n).erase x,
        (if (t.detach x).isElement c then c :: (t.detach x).descendants c else []) =
          if t.isElement c then c :: t.descendants c else [] := fun c hc => by
      rw [hd.isElement, ih c (List.mem_of_mem_erase hc)]
    rw [(h.detach x).descendants_eq, h.descendants_eq, h.children_detach,
      List.flatMap_congr hchild]
    by_cases hxn : x ∈ t.children n
    · obtain ⟨l₁, l₂, hno, hl, hl'⟩ := List.exists_erase_eq hxn
      rw [hl', hl, List.flatMap_append, List.flatMap_append, List.flatMap_cons, hx]
      simp
    · rw [List.erase_of_not_mem hxn]

theorem visible_detach_iff (hx : t.isElement x = false) :
    (t.detach x).Visible context n ↔ t.Visible context n := by
  rw [← (h.detach x).mem_descendants, h.descendants_detach hx, h.mem_descendants]

/-- **Between visible nodes the combinators lead where they led**, except to new neighbours. -/
theorem leads_detach_iff (hx : t.isElement x = false) (ha : t.Visible context a)
    (hn : t.Visible context n) (hk : k ≠ .adjacentSibling) :
    k.Leads (t.detach x) a n ↔ k.Leads t a n := by
  have hvisible : (t.detach x).Visible a n ↔ t.Visible a n := h.visible_detach_iff hx
  have ha' := (h.visible_detach_iff hx).mpr ha
  have hn' := (h.visible_detach_iff hx).mpr hn
  cases k with
  | adjacentSibling => exact absurd rfl hk
  | generalSibling => exact h.nextTo_trans_detach_iff (ha.ne hx) (hn.ne hx)
  | child =>
    rw [Combinator.Leads, Combinator.Leads, HasChild, HasChild, h.children_detach]
    exact List.mem_erase_of_ne (hn.ne hx)
  | descendant =>
    constructor
    · intro hb
      exact (hvisible.mp (visible_of_below ha'.2.1 hn' hb)).2.1
    · intro hb
      exact (hvisible.mpr (visible_of_below ha.2.1 hn hb)).2.1

theorem leads_detach (hx : t.isElement x = false) (ha : t.Visible context a)
    (hn : t.Visible context n) (hk : k.Leads t a n) : k.Leads (t.detach x) a n := by
  by_cases hadj : k = .adjacentSibling
  · subst hadj
    exact h.nextTo_detach (ha.ne hx) (hn.ne hx) hk
  · exact (h.leads_detach_iff hx ha hn hadj).mpr hk

/-! ## Alternatives -/

theorem covered_detach (hx : t.isElement x = false) (alt : Alternative) :
    alt.Covered t (t.detach x) context alt := by
  have hd : t.SameData (t.detach x) := (SameData.refl t).detach x
  refine ⟨fun n hn => (hd.holdsAt _ n).trans hn, List.forall₂_same.mpr fun s _ => ⟨?_, ?_⟩⟩
  · exact fun a n ha hn hk => h.leads_detach hx ha hn hk
  · exact fun n hn => (hd.holdsAt _ n).trans hn

theorem detach_covered (hx : t.isElement x = false) {alt : Alternative}
    (hk : ∀ s ∈ alt.tail, s.1 ≠ .adjacentSibling) :
    alt.Covered (t.detach x) t context alt := by
  have hd : t.SameData (t.detach x) := (SameData.refl t).detach x
  refine ⟨fun n hn => (hd.holdsAt _ n).symm.trans hn, List.forall₂_same.mpr fun s hs => ⟨?_, ?_⟩⟩
  · intro a n ha hn
    rw [h.visible_detach_iff hx] at ha hn
    exact (h.leads_detach_iff hx ha hn (hk s hs)).mp
  · exact fun n hn => (hd.holdsAt _ n).symm.trans hn

end Tree.WellLinked

/-- **Text and comments matter to the combinator for neighbours only.** -/
theorem Selector.all_of_removed (changes : List Change) {p x : NodeId}
    (hx : (Tree.after changes).isElement x = false) (hp : (Tree.after changes).parent x = p)
    (hnull : p ≠ .null) (context : NodeId) (s : Selector) :
    let t := Tree.after changes
    ∃ t', t.remove p x = .ok t' ∧
      ((∀ alt ∈ s.alternatives, ∀ step ∈ alt.tail, step.1 ≠ .adjacentSibling) →
        s.all t' context = s.all t context) ∧
      (∀ n ∈ (s.all t context).toList, n ∈ (s.all t' context).toList) ∧
      (s.tail = [] → (s.all t context).toList.Sublist (s.all t' context).toList) := by
  intro t
  classical
  obtain ⟨kids, h⟩ : ∃ kids, t.WellLinked kids := Tree.wellLinked_after changes
  have h' := h.detach x
  have hfault : t.removalFault? p x = none :=
    Tree.removalFault?_eq_none.mpr ⟨Tree.contains_of_parent (hp ▸ hnull), hp⟩
  have hvisible : ∀ ⦃n⦄, t.Visible context n → (t.detach x).Visible context n := fun n =>
    (h.visible_detach_iff hx).mpr
  refine ⟨t.detach x, by rw [Tree.remove, hfault], fun hk => ?_, fun n hn => ?_, fun hs => ?_⟩
  · refine Selector.all_eq_of_covered h h' (congrFun (h.descendants_detach hx) context) ?_
    exact List.forall₂_same.mpr fun alt halt =>
      ⟨h.covered_detach hx alt, h.detach_covered hx (hk alt halt)⟩
  · obtain ⟨alt, halt, hn⟩ := h.mem_all.mp hn
    exact h'.mem_all.mpr ⟨alt, halt, hn.covered hvisible (h.covered_detach hx alt)⟩
  · rw [h.all_of_single hs, h'.all_of_single hs, h.descendants_detach hx]
    refine List.monotone_filter_right _ fun n hn => decide_eq_true ?_
    exact (of_decide_eq_true hn).covered hvisible (h.covered_detach hx s.head)

theorem Selector.all_of_removed_between :
    let t := Tree.after [.createElement "li", .createText "x", .createElement "li",
      .insert .root (.slot 1) none, .insert .root (.slot 2) none, .insert .root (.slot 3) none]
    let s : Selector := ⟨⟨⟨[.tag "li"]⟩, [(.generalSibling, ⟨[.tag "li"]⟩)]⟩, []⟩
    t.isElement (.slot 2) = false ∧ t.parent (.slot 2) = .root ∧ NodeId.root ≠ .null ∧
      ∃ t', t.remove .root (.slot 2) = .ok t' ∧ s.all t' .root = s.all t .root ∧
        (∀ n ∈ (s.all t .root).toList, n ∈ (s.all t' .root).toList) ∧
        (s.all t .root).toList.Sublist (s.all t' .root).toList := by
  intro t s
  have hx : t.isElement (.slot 2) = false := by decide
  have hp : t.parent (.slot 2) = .root := by decide
  have hnull : NodeId.root ≠ .null := by decide
  obtain ⟨t', ht', heq, hmem, hsub⟩ := Selector.all_of_removed _ hx hp hnull .root s
  exact ⟨hx, hp, hnull, t', ht', heq (by decide), hmem, hsub rfl⟩

end MarkupQuery
