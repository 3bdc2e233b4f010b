import MarkupQuery.Proofs.Query.Listing
import MarkupQuery.Proofs.Tree.Change
import MarkupQuery.Query.Select

/-!
# What a selector means

An alternative describes a node if a chain of nodes leads to it: all of them are visible from the
context, each meets its compound, and each is led to from the one before by the combinator between
them. A search lists these nodes in document order.

* `Alternative.Matches`, from `LeadsOn`, with `WellLinked.visible_of_leads`;
* `Nested`: lists in which a node is followed by the whole list below it, with
  **`Nested.eraseDups_flatMap`**: joining the lists below some nodes keeps the order;
* `Search.mem_next`, `Search.next_filter`, `Search.along_filter`, **`Search.listed_eq_filter`**:
  each step lists what it should, with `Search.run_eq_matches`;
* **`Selector.select_eq_matches`**: the answer of a query, with `WellLinked.mem_all` and
  `WellLinked.all_of_single` for queries without options.
-/

namespace MarkupQuery

open Relation

/-! ## Meaning -/

/-- The combinators lead from `a` to `n` over visible nodes, each of which meets its compound. -/
def LeadsOn (t : Tree) (context : NodeId) : List (Combinator × Compound) → NodeId → NodeId → Prop
  | [], a, n => a = n
  | (k, c) :: rest, a, n => ∃ b, k.Leads t a b ∧ t.Visible context b ∧ c.holdsAt t b = true ∧
      LeadsOn t context rest b n

/-- A chain of visible nodes leads to `n`, one for each compound of the alternative. -/
def Alternative.Matches (t : Tree) (context : NodeId) (a : Alternative) (n : NodeId) : Prop :=
  ∃ b, t.Visible context b ∧ a.head.holdsAt t b = true ∧ LeadsOn t context a.tail b n

section

variable {t : Tree} {context b n : NodeId}

theorem LeadsOn.visible {rest : List (Combinator × Compound)} (hb : t.Visible context b)
    (h : LeadsOn t context rest b n) : t.Visible context n := by
  induction rest generalizing b with
  | nil => exact h ▸ hb
  | cons s rest ih =>
    obtain ⟨c, -, hc, -, hcn⟩ := h
    exact ih hc hcn

theorem Alternative.Matches.visible {a : Alternative} (h : a.Matches t context n) :
    t.Visible context n := by
  obtain ⟨b, hb, -, hbn⟩ := h
  exact hbn.visible hb

theorem Tree.WellLinked.visible_of_leads {kids : NodeId → List NodeId} (h : t.WellLinked kids)
    {k : Combinator} (hk : k.Leads t b n) (hn : t.Visible context n) (hb : t.isElement b = true)
    (hcb : t.Below context b) : t.Visible context b := by
  have hbelow : t.Below b n → t.Visible context b := fun hbn =>
    ⟨hb, hcb, fun m hcm hmb => hn.2.2 m hcm (hmb.trans hbn)⟩
  have hsibling : TransGen t.NextTo b n → t.Visible context b := fun hbn =>
    ⟨hb, hcb, fun m hcm hmb => hn.2.2 m hcm ((h.below_iff_of_nextTo hbn).mp hmb)⟩
  cases k with
  | descendant => exact hbelow hk
  | child => exact hbelow (.single hk)
  | adjacentSibling => exact hsibling (.single hk)
  | generalSibling => exact hsibling hk

end

/-! ## Nested lists -/

/-- A list in which each node `n` is followed by all of `d n`. -/
inductive Nested (d : NodeId → List NodeId) : List NodeId → Prop
  | nil : Nested d []
  | node {n rest} (hd : Nested d (d n)) (hr : Nested d rest) : Nested d (n :: (d n ++ rest))

namespace Nested

variable {d : NodeId → List NodeId} {vs ws : List NodeId}

theorem append (hv : Nested d vs) (hw : Nested d ws) : Nested d (vs ++ ws) := by
  induction hv with
  | nil => exact hw
  | node hd hr _ ih =>
    rw [List.cons_append, List.append_assoc]
    exact .node hd ih

theorem subset (hv : Nested d vs) : ∀ a ∈ vs, d a ⊆ vs := by
  induction hv with
  | nil => exact fun a ha => absurd ha List.not_mem_nil
  | @node n rest hd hr ihd ihr =>
    intro a ha x hx
    rcases List.mem_cons.mp ha with rfl | ha
    · exact List.mem_cons_of_mem _ (List.mem_append_left _ hx)
    rcases List.mem_append.mp ha with ha | ha
    · exact List.mem_cons_of_mem _ (List.mem_append_left _ (ihd a ha hx))
    · exact List.mem_cons_of_mem _ (List.mem_append_right _ (ihr a ha hx))

theorem flatMap_subset (hv : Nested d vs) (p : NodeId → Bool) : (vs.filter p).flatMap d ⊆ vs := by
  intro x hx
  obtain ⟨a, ha, hx⟩ := List.mem_flatMap.mp hx
  exact hv.subset a (List.mem_filter.mp ha).1 hx

open Classical in
/-- **The lists below some nodes, joined, keep the order of the whole list.** -/
theorem eraseDups_flatMap (hv : Nested d vs) (hn : vs.Nodup) (p : NodeId → Bool) :
    ((vs.filter p).flatMap d).eraseDups =
      vs.filter fun x => ∃ a ∈ vs, p a = true ∧ x ∈ d a := by
  induction hv with
  | nil => rfl
  | @node n rest hd hr ihd ihr =>
    obtain ⟨hnn, hn⟩ := List.nodup_cons.mp hn
    obtain ⟨hnd, hnr, hdis⟩ := List.nodup_append.mp hn
    have hself : ¬ ∃ a ∈ n :: (d n ++ rest), p a = true ∧ n ∈ d a := by
      rintro ⟨a, ha, -, hna⟩
      have hsub := (hd.append hr).subset
      rcases List.mem_cons.mp ha with rfl | ha
      · exact hnn (List.mem_append_left _ hna)
      · exact hnn (hsub a ha hna)
    -- what lies below a node of `d n` is no member of `rest`, and the other way round
    have hrest : ∀ x ∈ rest, (∃ a ∈ n :: (d n ++ rest), p a = true ∧ x ∈ d a) ↔
        ∃ a ∈ rest, p a = true ∧ x ∈ d a := by
      intro x hx
      refine ⟨?_, fun ⟨a, ha, h⟩ => ⟨a, by simp [ha], h⟩⟩
      rintro ⟨a, ha, hp, hxa⟩
      rcases List.mem_cons.mp ha with rfl | ha
      · exact absurd rfl (hdis x hxa x hx)
      rcases List.mem_append.mp ha with ha | ha
      · exact absurd rfl (hdis x (hd.subset a ha hxa) x hx)
      · exact ⟨a, ha, hp, hxa⟩
    have hremove : ∀ l ⊆ d n, ((rest.filter p).flatMap d).removeAll l = (rest.filter p).flatMap d := by
      intro l hl
      refine List.filter_eq_self.mpr fun x hx => ?_
      simpa using fun hxl => hdis x (hl hxl) x (hr.flatMap_subset p hx) rfl
    have hright : ((n :: (d n ++ rest)).filter fun x => ∃ a ∈ n :: (d n ++ rest), p a = true ∧
        x ∈ d a) = ((d n).filter fun x => ∃ a ∈ n :: (d n ++ rest), p a = true ∧ x ∈ d a) ++
          rest.filter fun x => ∃ a ∈ rest, p a = true ∧ x ∈ d a := by
      rw [List.filter_cons_of_neg (by rwa [decide_eq_true_iff]), List.filter_append,
        List.filter_congr fun x hx => decide_eq_decide.mpr (hrest x hx)]
    rw [hright]
    by_cases hp : p n = true
    · have hbelow : ∀ x ∈ d n, ∃ a ∈ n :: (d n ++ rest), p a = true ∧ x ∈ d a := fun x hx =>
        ⟨n, List.mem_cons_self, hp, hx⟩
      rw [List.filter_cons_of_pos hp, List.flatMap_cons, List.filter_append, List.flatMap_append,
        ← List.append_assoc, List.eraseDups_append, hremove _ (List.append_subset.mpr
          ⟨List.Subset.refl _, hd.flatMap_subset p⟩),
        eraseDups_append_of_subset (hd.flatMap_subset p), eraseDups_of_nodup hnd, ihr hnr,
        List.filter_eq_self.mpr fun x hx => decide_eq_true (hbelow x hx)]
    · have hbelow : ∀ x ∈ d n, (∃ a ∈ n :: (d n ++ rest), p a = true ∧ x ∈ d a) ↔
          ∃ a ∈ d n, p a = true ∧ x ∈ d a := by
        intro x hx
        refine ⟨?_, fun ⟨a, ha, h⟩ => ⟨a, by simp [ha], h⟩⟩
        rintro ⟨a, ha, hpa, hxa⟩
        rcases List.mem_cons.mp ha with rfl | ha
        · exact absurd hpa hp
        rcases List.mem_append.mp ha with ha | ha
        · exact ⟨a, ha, hpa, hxa⟩
        · exact absurd rfl (hdis x hx x (hr.subset a ha hxa))
      rw [List.filter_cons_of_neg hp, List.filter_append, List.flatMap_append,
        List.eraseDups_append, hremove _ (hd.flatMap_subset p), ihd hnd, ihr hnr,
        List.filter_congr fun x hx => decide_eq_decide.mpr (hbelow x hx)]

end Nested

theorem Tree.WellLinked.nested_descendants {t : Tree} {kids : NodeId → List NodeId}
    (h : t.WellLinked kids) (n : NodeId) : Nested t.descendants (t.descendants n) := by
  induction n using h.induction_up with
  | ih n ih =>
    have key : ∀ cs ⊆ t.children n, Nested t.descendants
        (cs.flatMap fun c => if t.isElement c then c :: t.descendants c else []) := by
      intro cs hcs
      induction cs with
      | nil => exact .nil
      | cons c cs ihcs =>
        obtain ⟨hc, hcs⟩ := List.cons_subset.mp hcs
        rw [List.flatMap_cons]
        by_cases he : t.isElement c = true
        · rw [if_pos he, List.cons_append]
          exact .node (ih c hc) (ihcs hcs)
        · rw [if_neg he, List.nil_append]
          exact ihcs hcs
    rw [h.descendants_eq]
    exact key _ (List.Subset.refl _)

/-! ## Steps -/

namespace Search

variable {q : Search} {kids : NodeId → List NodeId} {left : List NodeId} {c : Compound} {n : NodeId}
  (h : q.tree.WellLinked kids)

include h

theorem mem_next {k : Combinator} : n ∈ q.next left k c ↔ c.holdsAt q.tree n = true ∧
    ∃ a ∈ left, k.Leads q.tree a n ∧
      q.tree.Visible (if k = .descendant then a else q.context) n := by
  have htargets : ∀ k : Combinator, k ≠ .descendant →
      ((n ∈ (q.tree.descendants q.context).filter fun n =>
        (k.targets q.tree left).contains n && c.holdsAt q.tree n) ↔ c.holdsAt q.tree n = true ∧
      ∃ a ∈ left, k.Leads q.tree a n ∧
        q.tree.Visible (if k = .descendant then a else q.context) n) := by
    intro k hk
    simp only [List.mem_filter, h.mem_descendants, Bool.and_eq_true, h.contains_targets hk, if_neg hk]
    constructor
    · rintro ⟨hv, ⟨a, ha, hl⟩, hc⟩
      exact ⟨hc, a, ha, hl, hv⟩
    · rintro ⟨hc, a, ha, hl, hv⟩
      exact ⟨hv, ⟨a, ha, hl⟩, hc⟩
  cases k with
  | descendant =>
    simp only [next, List.mem_eraseDups, List.mem_flatMap, List.mem_filter, h.mem_descendants, if_true]
    constructor
    · rintro ⟨a, ha, hv, hc⟩
      exact ⟨hc, a, ha, hv.2.1, hv⟩
    · rintro ⟨hc, a, ha, -, hv⟩
      exact ⟨a, ha, hv, hc⟩
  | child => exact htargets .child (by decide)
  | adjacentSibling => exact htargets .adjacentSibling (by decide)
  | generalSibling => exact htargets .generalSibling (by decide)

open Classical in
/-- **A step lists the nodes that its combinator leads to, in document order.** -/
theorem next_filter (p : NodeId → Bool) (k : Combinator) (c : Compound) :
    q.next ((q.tree.descendants q.context).filter p) k c =
      (q.tree.descendants q.context).filter fun n => c.holdsAt q.tree n = true ∧
        ∃ a, q.tree.Visible q.context a ∧ p a = true ∧ k.Leads q.tree a n := by
  have hmem : ∀ a, a ∈ (q.tree.descendants q.context).filter p ↔
      q.tree.Visible q.context a ∧ p a = true := fun a => by
    rw [List.mem_filter, h.mem_descendants]
  have htargets : ∀ k : Combinator, k ≠ .descendant →
      ((q.tree.descendants q.context).filter fun n => (k.targets q.tree
        ((q.tree.descendants q.context).filter p)).contains n && c.holdsAt q.tree n) =
      (q.tree.descendants q.context).filter fun n => c.holdsAt q.tree n = true ∧
        ∃ a, q.tree.Visible q.context a ∧ p a = true ∧ k.Leads q.tree a n := by
    refine fun k hk => List.filter_congr fun n _ => ?_
    rw [Bool.eq_iff_iff, Bool.and_eq_true, h.contains_targets hk, decide_eq_true_iff, and_comm]
    simp only [hmem, and_assoc]
  cases k with
  | descendant =>
    rw [next, ← List.filter_flatMap, eraseDups_filter,
      (h.nested_descendants q.context).eraseDups_flatMap (h.nodup_descendants q.context),
      List.filter_filter]
    refine List.filter_congr fun n hn => ?_
    rw [h.mem_descendants] at hn
    rw [Bool.eq_iff_iff, Bool.and_eq_true, decide_eq_true_iff, decide_eq_true_iff]
    refine and_congr Iff.rfl (exists_congr fun a => ?_)
    rw [h.mem_descendants, h.mem_descendants]
    refine and_congr_right fun ha => and_congr_right fun _ => ?_
    exact ⟨fun han => han.2.1, Tree.WellLinked.visible_of_below ha.2.1 hn⟩
  | child => exact htargets .child (by decide)
  | adjacentSibling => exact htargets .adjacentSibling (by decide)
  | generalSibling => exact htargets .generalSibling (by decide)

open Classical in
theorem along_filter (p : NodeId → Bool) (rest : List (Combinator × Compound)) :
    q.along ((q.tree.descendants q.context).filter p) rest =
      (q.tree.descendants q.context).filter fun n => ∃ a, q.tree.Visible q.context a ∧
        p a = true ∧ LeadsOn q.tree q.context rest a n := by
  induction rest generalizing p with
  | nil =>
    refine List.filter_congr fun n hn => ?_
    rw [h.mem_descendants] at hn
    rw [Bool.eq_iff_iff, decide_eq_true_iff]
    exact ⟨fun hp => ⟨n, hn, hp, rfl⟩, fun ⟨a, _, hp, ha⟩ => ha ▸ hp⟩
  | cons s rest ih =>
    obtain ⟨k, c⟩ := s
    rw [along, next_filter h, ih]
    refine List.filter_congr fun n _ => decide_eq_decide.mpr ⟨?_, ?_⟩
    · rintro ⟨b, hb, hpb, hbn⟩
      obtain ⟨hc, a, ha, hp, hab⟩ := decide_eq_true_iff.mp hpb
      exact ⟨a, ha, hp, b, hab, hb, hc, hbn⟩
    · rintro ⟨a, ha, hp, b, hab, hb, hc, hbn⟩
      exact ⟨b, hb, decide_eq_true ⟨hc, a, ha, hp, hab⟩, hbn⟩

open Classical in
theorem listed_eq_filter {a : Alternative}
    (hh : q.heads a.head = (q.tree.descendants q.context).filter (a.head.holdsAt q.tree)) :
    q.listed a = (q.tree.descendants q.context).filter (a.Matches q.tree q.context) := by
  rw [listed, hh, along_filter h]
  rfl

open Classical in
/-- **Without a limit, a search answers what the alternatives describe.** -/
theorem run_eq_matches (hl : q.options.limit = none) (s : Selector) : (q.run s).toList =
    (s.alternatives.flatMap fun a =>
      (q.tree.descendants q.context).filter (a.Matches q.tree q.context)).eraseDups := by
  rw [run_toList h, hl, atMost]
  refine congrArg List.eraseDups (congrArg (List.flatMap · s.alternatives) (funext fun a => ?_))
  exact listed_eq_filter h (heads_of_not_asked (by simp [indexed?, hl]))

end Search

/-! ## Queries -/

namespace Tree.WellLinked

variable {t : Tree} {kids : NodeId → List NodeId} {context n : NodeId} (h : t.WellLinked kids)

include h

open Classical in
theorem all_eq_matches (context : NodeId) (s : Selector) : (s.all t context).toList =
    (s.alternatives.flatMap fun alt =>
      (t.descendants context).filter (alt.Matches t context)).eraseDups :=
  Search.run_eq_matches (q := { tree := t, context, lookup := t.soleOwner?, options := {} }) h rfl s

theorem mem_all {s : Selector} :
    n ∈ (s.all t context).toList ↔ ∃ alt ∈ s.alternatives, alt.Matches t context n := by
  classical
  rw [h.all_eq_matches, List.mem_eraseDups, List.mem_flatMap]
  refine exists_congr fun alt => and_congr_right fun _ => ?_
  rw [List.mem_filter, h.mem_descendants, decide_eq_true_iff]
  exact and_iff_right_of_imp Alternative.Matches.visible

open Classical in
theorem all_of_single {s : Selector} (hs : s.tail = []) :
    (s.all t context).toList = (t.descendants context).filter (s.head.Matches t context) := by
  rw [h.all_eq_matches, Selector.alternatives, hs, List.flatMap_singleton,
    eraseDups_of_nodup ((h.nodup_descendants context).filter _)]

end Tree.WellLinked

open Classical in
/-- **A query without a limit answers what the selector means**, in order, each node once. -/
theorem Selector.select_eq_matches (changes : List Change) (context : NodeId) (s : Selector)
    (useIdIndex cacheDescendants : Bool) :
    (s.select (Tree.after changes) context
      { limit := none, useIdIndex, cacheDescendants }).toList =
      (s.alternatives.flatMap fun a => ((Tree.after changes).preorder context).filter
        (a.Matches (Tree.after changes) context)).eraseDups := by
  obtain ⟨kids, h⟩ := Tree.wellLinked_after changes
  rw [Selector.select, Search.run_toList h, atMost]
  refine congrArg List.eraseDups (congrArg (List.flatMap · s.alternatives) (funext fun a => ?_))
  rw [Search.listed_eq_filter h (Search.heads_of_not_asked (by simp [Search.indexed?])),
    h.descendants_eq_filter, List.filter_filter]
  refine List.filter_congr fun n _ => ?_
  rw [← Bool.decide_and]
  exact decide_eq_decide.mpr (and_iff_left_of_imp Alternative.Matches.visible)

end MarkupQuery
