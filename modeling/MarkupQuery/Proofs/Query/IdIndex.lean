import MarkupQuery.Proofs.Query.Meaning

/-!
# The id index

A search may ask an index for the one node that an id value belongs to. The answer is looked at
again, so that a wrong one is found out. What remains to be known of an index is that the value
belongs to no other node below the context.

* `Search.heads_eq_filter`: when the index gives what the walk finds;
* `Tree.ParentsAreElements`: only the document node and elements have children, as in every tree
  that is read from markup;
* **`Search.run_useIdIndex`**: in such a tree, no answer depends on the use of the index;
* `Search.matches_of_mem_listed`: what comes of a node from the index;
* **`Search.run_subset`**: in such a tree, even a wrong index leads to no wrong node.
-/

namespace MarkupQuery

variable {t : Tree} {kids : NodeId → List NodeId} {c : Compound} {n m : NodeId}

/-! ## Checked answers -/

namespace Search

variable {q : Search}

theorem heads_eq_filter (h : q.tree.WellLinked kids)
    (hi : ∀ n, q.indexed? c = some n → q.tree.Visible q.context n ∧
      ∀ m, q.tree.Visible q.context m → c.holdsAt q.tree m = true → m = n) :
    q.heads c = (q.tree.descendants q.context).filter (c.holdsAt q.tree) := by
  cases hn : q.indexed? c with
  | none => exact heads_of_not_asked hn
  | some n =>
    obtain ⟨hv, hsole⟩ := hi n hn
    have hc := ((indexed?_eq_some h).mp hn).2.2.2
    have hperm : ((q.tree.descendants q.context).filter (c.holdsAt q.tree)).Perm [n] := by
      refine (List.perm_ext_iff_of_nodup ((h.nodup_descendants _).filter _)
        (List.nodup_singleton n)).mpr fun m => ?_
      rw [List.mem_filter, h.mem_descendants, List.mem_singleton]
      exact ⟨fun hm => hsole m hm.1 hm.2, fun e => e ▸ ⟨hv, hc⟩⟩
    rw [heads, hn, List.perm_singleton.mp hperm]

end Search

/-! ## Trees without children of other nodes -/

/-- Only the document node and elements have children. -/
def Tree.ParentsAreElements (t : Tree) : Prop :=
  ∀ p c, t.HasChild p c → p = .root ∨ t.isElement p = true

theorem Compound.isElement_of_holdsAt (hc : c.holdsAt t n = true) : t.isElement n = true := by
  rw [Compound.holdsAt, Bool.and_eq_true] at hc
  exact hc.1

theorem Tree.WellLinked.visible_of_parentsAreElements (h : t.WellLinked kids)
    (hp : t.ParentsAreElements) (hn : t.Below .root n) (he : t.isElement n = true) :
    t.Visible .root n := by
  refine ⟨he, hn, fun m hm hmn => ?_⟩
  obtain ⟨x, hx, -⟩ := Relation.TransGen.head'_iff.mp hmn
  rcases hp m x hx with rfl | hm'
  · exact absurd hm h.not_below_self
  · exact hm'

theorem NodeList.toList_injective {l l' : NodeList} (h : l.toList = l'.toList) : l = l' := by
  obtain ⟨a⟩ := l
  obtain ⟨a'⟩ := l'
  exact congrArg NodeList.mk (Array.toList_inj.mp h)

theorem Tree.WellLinked.parentsAreElements_of_ids (h : t.WellLinked kids)
    (hp : ∀ p ∈ t.ids, t.children p ≠ [] → p = .root ∨ t.isElement p = true) :
    t.ParentsAreElements := fun p _ hc =>
  hp p (Tree.contains_iff_mem_ids.mp (h.contains_of_below (.single hc)).1) (List.ne_nil_of_mem hc)

theorem Search.visible_of_indexed {q : Search} (h : q.tree.WellLinked kids)
    (hp : q.tree.ParentsAreElements) (hn : q.indexed? c = some n) : q.tree.Visible q.context n := by
  obtain ⟨⟨-, -, hroot⟩, -, hb, hc⟩ := (indexed?_eq_some h).mp hn
  rw [hroot] at hb ⊢
  exact h.visible_of_parentsAreElements hp hb (Compound.isElement_of_holdsAt hc)

/-- **No answer depends on the use of an id index that is right about owners.** -/
theorem Search.run_useIdIndex (changes : List Change) (lookup : String → Option NodeId)
    (hp : (Tree.after changes).ParentsAreElements)
    (hl : ∀ v n m, lookup v = some n → (Tree.after changes).Below .root m →
      (Tree.after changes).carriesId m v = true → m = n)
    (context : NodeId) (limit : Option ℕ) (cacheDescendants : Bool) (s : Selector) :
    Search.run ⟨Tree.after changes, context, lookup,
      { limit, useIdIndex := true, cacheDescendants }⟩ s =
    Search.run ⟨Tree.after changes, context, lookup,
      { limit, useIdIndex := false, cacheDescendants }⟩ s := by
  obtain ⟨kids, h⟩ := Tree.wellLinked_after changes
  refine NodeList.toList_injective ?_
  rw [run_toList h, run_toList h]
  refine congrArg (fun l => atMost limit (List.eraseDups l))
    (congrArg (List.flatMap · s.alternatives) (funext fun a => ?_))
  rw [listed_eq_filter h, listed_eq_filter h]
  · exact heads_of_not_asked (by simp [indexed?])
  · refine heads_eq_filter h fun n hn => ?_
    obtain ⟨⟨-, -, hroot⟩, ⟨v, hv, hvn⟩, hb, hc⟩ := (indexed?_eq_some h).mp hn
    dsimp only at hroot hvn hb hc ⊢
    rw [hroot] at hb ⊢
    refine ⟨h.visible_of_parentsAreElements hp hb (Compound.isElement_of_holdsAt hc), ?_⟩
    exact fun m hm hmc => hl v n m hvn hm.2.1 (Compound.carriesId_of_holdsAt hv hmc)

theorem Search.run_useIdIndex_paragraph :
    let t := Tree.after [.createElement "div", .createElement "p", .insert .root (.slot 1) none,
      .insert (.slot 1) (.slot 2) none, .setAttribute (.slot 1) "id" "x"]
    let lookup := fun v => if v = "x" then some (.slot 1) else none
    let s : Selector := ⟨⟨⟨[.id "x"]⟩, [(.child, ⟨[.tag "p"]⟩)]⟩, []⟩
    Search.run ⟨t, .root, lookup, { limit := some 1, useIdIndex := true }⟩ s =
      Search.run ⟨t, .root, lookup, { limit := some 1, useIdIndex := false }⟩ s := by
  intro t lookup s
  obtain ⟨kids, h⟩ : ∃ kids, t.WellLinked kids := Tree.wellLinked_after _
  refine Search.run_useIdIndex _ lookup ?_ ?_ .root (some 1) true s
  · intro p c hc
    have hp := Tree.contains_iff_mem_ids.mp (h.contains_of_below (.single hc)).1
    have hcases : ∀ p ∈ t.ids, t.children p ≠ [] → p = .root ∨ t.isElement p = true := by decide
    exact hcases p hp (List.ne_nil_of_mem hc)
  · intro v n m hv hm hc
    obtain ⟨-, rfl⟩ : v = "x" ∧ NodeId.slot 1 = n := by simpa [lookup] using hv
    have hids : t.ids = [.root, .slot 1, .slot 2] := by decide
    have hmem : m ∈ t.ids := Tree.contains_iff_mem_ids.mp (h.contains_of_below hm).2
    simp only [hids, List.mem_cons, List.not_mem_nil, or_false] at hmem
    rcases hmem with rfl | rfl | rfl
    · exact absurd hm h.not_below_self
    · rfl
    · have he : t.element? (.slot 2) = some (.ofTag "p") := rfl
      change t.carriesId (.slot 2) v = true at hc
      rw [Tree.carriesId, Tree.attribute?, he] at hc
      simp [Element.ofTag, Attributes.empty, Attributes.get?] at hc

/-! ## Wrong indexes -/

namespace Search

variable {q : Search} {left : List NodeId} (h : q.tree.WellLinked kids)

include h

theorem leadsOn_of_mem_along {rest : List (Combinator × Compound)}
    (hl : ∀ a ∈ left, q.tree.Visible q.context a) (hn : n ∈ q.along left rest) :
    ∃ a ∈ left, LeadsOn q.tree q.context rest a n := by
  induction rest generalizing left with
  | nil => exact ⟨n, hn, rfl⟩
  | cons s rest ih =>
    obtain ⟨k, c⟩ := s
    have hstep : ∀ b ∈ q.next left k c, c.holdsAt q.tree b = true ∧
        ∃ a ∈ left, k.Leads q.tree a b ∧ q.tree.Visible q.context b := by
      intro b hb
      obtain ⟨hc, a, ha, hk, hv⟩ := (mem_next h).mp hb
      refine ⟨hc, a, ha, hk, ?_⟩
      split_ifs at hv
      · exact h.visible_trans (hl a ha) hv
      · exact hv
    obtain ⟨b, hb, hbn⟩ := ih (fun b hb => (hstep b hb).2.choose_spec.2.2) hn
    obtain ⟨hc, a, ha, hk, hv⟩ := hstep b hb
    exact ⟨a, ha, b, hk, hv, hc, hbn⟩

/-- **An alternative lists only nodes that it describes**, if the index gives no hidden ones. -/
theorem matches_of_mem_listed {a : Alternative}
    (hi : ∀ n, q.indexed? a.head = some n → q.tree.Visible q.context n) (hn : n ∈ q.listed a) :
    a.Matches q.tree q.context n := by
  have hheads : ∀ b ∈ q.heads a.head, q.tree.Visible q.context b ∧
      a.head.holdsAt q.tree b = true := by
    intro b hb
    rw [heads] at hb
    split at hb
    · rename_i m hm
      obtain rfl := List.mem_singleton.mp hb
      exact ⟨hi _ hm, ((indexed?_eq_some h).mp hm).2.2.2⟩
    · rw [List.mem_filter, h.mem_descendants] at hb
      exact hb
  obtain ⟨b, hb, hbn⟩ := leadsOn_of_mem_along h (fun b hb => (hheads b hb).1) hn
  exact ⟨b, (hheads b hb).1, (hheads b hb).2, hbn⟩

end Search

/-- **A wrong index leads to no wrong node.** -/
theorem Search.run_subset (changes : List Change) (lookup : String → Option NodeId)
    (hp : (Tree.after changes).ParentsAreElements) (context : NodeId) (options : QueryOptions)
    (s : Selector) (cacheDescendants : Bool) :
    let answer := Search.run ⟨Tree.after changes, context, lookup, options⟩ s
    let all := Search.run ⟨Tree.after changes, context, lookup,
      { limit := none, useIdIndex := false, cacheDescendants }⟩ s
    answer.toList.Nodup ∧ answer.toList ⊆ all.toList := by
  intro answer all
  obtain ⟨kids, h⟩ := Tree.wellLinked_after changes
  have hanswer : answer.toList = atMost options.limit _ := run_toList h s
  have hall : all.toList = atMost none _ := run_toList h s
  rw [hanswer, hall]
  refine ⟨(nodup_eraseDups _).sublist (atMost_sublist _ _), fun n hn => ?_⟩
  obtain ⟨a, ha, hn⟩ := List.mem_flatMap.mp
    (List.mem_eraseDups.mp ((atMost_sublist _ _).subset hn))
  have hm := matches_of_mem_listed h (fun _ => visible_of_indexed h hp) hn
  refine List.mem_eraseDups.mpr (List.mem_flatMap.mpr ⟨a, ha, ?_⟩)
  rw [listed_eq_filter h (heads_of_not_asked (by simp [indexed?])), List.mem_filter,
    h.mem_descendants]
  exact ⟨hm.visible, by simpa using hm⟩

/-- An index that gives a paragraph without an id for every id. -/
theorem Search.run_subset_paragraph_for_all :
    let t := Tree.after [.createElement "div", .createElement "p", .insert .root (.slot 1) none,
      .insert (.slot 1) (.slot 2) none, .writeAttribute (.slot 1) "id" "x"]
    let lookup := fun _ => some (.slot 2)
    let s : Selector := ⟨⟨⟨[.id "x"]⟩, [(.child, ⟨[.tag "p"]⟩)]⟩, [⟨⟨[.tag "p"]⟩, []⟩]⟩
    let answer := Search.run ⟨t, .root, lookup, .firstOnly⟩ s
    let all := Search.run ⟨t, .root, lookup, { limit := none, useIdIndex := false }⟩ s
    t.ParentsAreElements ∧ answer.toList.Nodup ∧ answer.toList ⊆ all.toList := by
  intro t lookup s answer all
  obtain ⟨kids, h⟩ : ∃ kids, t.WellLinked kids := Tree.wellLinked_after _
  have hp : t.ParentsAreElements := h.parentsAreElements_of_ids (by decide)
  exact ⟨hp, Search.run_subset _ lookup hp .root .firstOnly s true⟩

end MarkupQuery
