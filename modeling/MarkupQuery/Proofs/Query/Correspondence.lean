import Mathlib.Data.List.Sort
import MarkupQuery.Proofs.Query.First
import MarkupQuery.Proofs.Tree.Attributes

/-!
# Trees that look alike

An answer depends on what lies below the context, and on nothing else: not on where the tree keeps
its nodes, what has been done to it, what lies outside the context, or what the tables of ids say.
If the nodes below two contexts correspond to each other, then so do the answers.

* `Tree.Corresponds`: a renaming of the nodes below one context into those below another;
* `Tree.Facing`: a node and its counterpart, the contexts included;
* `Tree.WellLinked.corresponds_of_children`: a renaming that keeps all lists of children;
* `Corresponds.children_eq`, **`Corresponds.descendants_eq`**: every renaming keeps them, and with
  them the walk over elements;
* `Corresponds.leads_iff`, `Corresponds.holdsAt_eq`, **`Corresponds.matches_iff`**: combinators,
  compounds and alternatives say the same of a node and of its counterpart;
* **`Corresponds.toList_all`**, **`Tree.queryAll_eq_map`**: the answers.
-/

namespace MarkupQuery

open Relation

/-! ## Renamings -/

/-- The nodes strictly below `a` in `t` are those strictly below `a'` in `t'` under other ids. Both
contexts may be of any kind. Of the kind of a node only this is asked, that an element goes to an
element of its tag and any other node to no element. -/
structure Tree.Corresponds (t t' : Tree) (a a' : NodeId) (f : NodeId → NodeId) : Prop where
  bijOn : Set.BijOn f {n | t.Below a n} {n | t'.Below a' n}
  /-- A child of one context goes to a child of the other. -/
  child_context : ∀ {n}, t.HasChild a n → t'.HasChild a' (f n)
  child : ∀ {p n}, t.Below a p → t.HasChild p n → t'.HasChild (f p) (f n)
  /-- A later sibling goes to a later sibling. -/
  later : ∀ {m n}, t.Below a m → TransGen t.NextTo m n → TransGen t'.NextTo (f m) (f n)
  tag_eq : ∀ {n}, t.Below a n → t'.tag? (f n) = t.tag? n
  /-- The attributes have the same names and values, in any order. -/
  attribute_eq : ∀ {n}, t.Below a n → ∀ name, t'.attribute? (f n) name = t.attribute? n name

namespace Tree

variable {t t' : Tree} {kids kids' : NodeId → List NodeId} {a a' p p' q c m n : NodeId}
  {f : NodeId → NodeId} {l : List NodeId}

/-- The node `p'` is the counterpart of `p`. The contexts are counterparts of each other. -/
def Facing (t : Tree) (a a' : NodeId) (f : NodeId → NodeId) (p p' : NodeId) : Prop :=
  p = a ∧ p' = a' ∨ t.Below a p ∧ f p = p'

namespace Facing

theorem context : t.Facing a a' f a a' := .inl ⟨rfl, rfl⟩

theorem of_below (hn : t.Below a n) : t.Facing a a' f n (f n) := .inr ⟨hn, rfl⟩

variable (hp : t.Facing a a' f p p')

include hp

theorem below_of_child (hc : t.HasChild p c) : t.Below a c := by
  rcases hp with ⟨rfl, -⟩ | ⟨hp, -⟩
  · exact .single hc
  · exact hp.tail hc

theorem below_trans (hn : t.Below p n) : t.Below a n := by
  rcases hp with ⟨rfl, -⟩ | ⟨hp, -⟩
  · exact hn
  · exact hp.trans hn

end Facing

theorem exists_facing (a' : NodeId) (f : NodeId → NodeId) (hn : t.Below a n) :
    ∃ p p', t.Facing a a' f p p' ∧ t.HasChild p n := by
  obtain ⟨p, hap, hpn⟩ := TransGen.tail'_iff.mp hn
  rcases reflTransGen_iff_eq_or_transGen.mp hap with rfl | hap
  · exact ⟨p, a', .context, hpn⟩
  · exact ⟨p, f p, .of_below hap, hpn⟩

/-! ## Lists of children -/

theorem exists_siblings (h : t.WellLinked kids) (h' : t'.WellLinked kids')
    (hc : ∀ {p p'}, t.Facing a a' f p p' → t'.children p' = (t.children p).map f)
    (hm : t.Below a m) : ∃ p p' l₁ l₂, kids p = l₁ ++ m :: l₂ ∧
      kids' p' = l₁.map f ++ f m :: l₂.map f ∧ ∀ n ∈ l₂, t.Below a n := by
  obtain ⟨p, p', hp, hpm⟩ := exists_facing a' f hm
  obtain ⟨l₁, l₂, hl⟩ := List.append_of_mem hpm
  refine ⟨p, p', l₁, l₂, (h.children_eq p).symm.trans hl, ?_, fun n hn => ?_⟩
  · rw [← h'.children_eq, hc hp, hl, List.map_append, List.map_cons]
  · have hc : n ∈ t.children p := by rw [hl]; simp [hn]
    exact hp.below_of_child hc

theorem WellLinked.corresponds_of_children (h : t.WellLinked kids) (h' : t'.WellLinked kids')
    (hf : Set.BijOn f {n | t.Below a n} {n | t'.Below a' n})
    (hc : t'.children a' = (t.children a).map f)
    (hcs : ∀ p, t.Below a p → t'.children (f p) = (t.children p).map f)
    (ht : ∀ n, t.Below a n → t'.tag? (f n) = t.tag? n)
    (ha : ∀ n, t.Below a n → ∀ name, t'.attribute? (f n) name = t.attribute? n name) :
    t.Corresponds t' a a' f := by
  have hfacing : ∀ {p p'}, t.Facing a a' f p p' → t'.children p' = (t.children p).map f := by
    rintro p p' (⟨rfl, rfl⟩ | ⟨hp, rfl⟩)
    · exact hc
    · exact hcs p hp
  have hchild : ∀ {p p' n}, t.Facing a a' f p p' → t.HasChild p n → t'.HasChild p' (f n) := by
    intro p p' n hp hn
    rw [HasChild, hfacing hp]
    exact List.mem_map_of_mem hn
  refine ⟨hf, hchild .context, fun hp => hchild (.of_below hp), fun hm hmn => ?_, ht _, ha _⟩
  obtain ⟨p, p', l₁, l₂, hl, hl', -⟩ := exists_siblings h h' hfacing hm
  rw [h'.nextTo_trans_iff hl']
  exact List.mem_map_of_mem ((h.nextTo_trans_iff hl).mp hmn)

namespace Corresponds

variable (hf : t.Corresponds t' a a' f)

include hf

theorem mem_map_iff (hl : ∀ x ∈ l, t.Below a x) (hn : t.Below a n) : f n ∈ l.map f ↔ n ∈ l := by
  refine ⟨fun hm => ?_, List.mem_map_of_mem⟩
  obtain ⟨x, hx, e⟩ := List.mem_map.mp hm
  exact hf.bijOn.injOn (hl x hx) hn e ▸ hx

theorem hasChild_of_facing (hp : t.Facing a a' f p p') (hc : t.HasChild p c) :
    t'.HasChild p' (f c) := by
  rcases hp with ⟨rfl, rfl⟩ | ⟨hp, rfl⟩
  · exact hf.child_context hc
  · exact hf.child hp hc

theorem below_of_facing (hp : t.Facing a a' f p p') (hn : t.Below p n) : t'.Below p' (f n) := by
  induction hn with
  | single hc => exact .single (hf.hasChild_of_facing hp hc)
  | tail hm hc ih => exact ih.tail (hf.child (hp.below_trans hm) hc)

theorem isElement_eq (hn : t.Below a n) : t'.isElement (f n) = t.isElement n := by
  have ht : ∀ (t : Tree) n, t.isElement n = (t.tag? n).isSome := fun t n =>
    Option.isSome_map.symm
  rw [ht, ht, hf.tag_eq hn]

section

variable (h : t.WellLinked kids) (h' : t'.WellLinked kids')

include h'

theorem eq_of_facing (hp : t.Facing a a' f p p') (hq : t.Facing a a' f q p') : p = q := by
  have hnot : ∀ {n}, t.Below a n → f n ≠ a' := fun hn e =>
    h'.not_below_self (e ▸ hf.bijOn.mapsTo hn)
  rcases hp with ⟨rfl, rfl⟩ | ⟨hp, rfl⟩
  · rcases hq with ⟨rfl, -⟩ | ⟨hq, e⟩
    · rfl
    · exact absurd e (hnot hq)
  · rcases hq with ⟨-, e⟩ | ⟨hq, e⟩
    · exact absurd e (hnot hp)
    · exact (hf.bijOn.injOn hq hp e).symm

theorem exists_child (hp : t.Facing a a' f p p') {c' : NodeId} (hc : t'.HasChild p' c') :
    ∃ c, t.HasChild p c ∧ f c = c' := by
  have hbelow : t'.Below a' c' := by
    rcases hp with ⟨-, rfl⟩ | ⟨hp, rfl⟩
    · exact .single hc
    · exact (hf.bijOn.mapsTo hp).tail hc
  obtain ⟨c, hac, rfl⟩ := hf.bijOn.surjOn hbelow
  obtain ⟨q, q', hq, hqc⟩ := exists_facing a' f hac
  -- the counterparts of `c` have one parent only
  have hparent : t'.parent (f c) = q' := (h'.hasChild_iff.mp (hf.hasChild_of_facing hq hqc)).1
  obtain rfl : q' = p' := hparent.symm.trans (h'.hasChild_iff.mp hc).1
  obtain rfl := hf.eq_of_facing h' hq hp
  exact ⟨c, hqc, rfl⟩

theorem exists_below (hp : t.Facing a a' f p p') {n' : NodeId} (hn' : t'.Below p' n') :
    ∃ n, t.Below p n ∧ f n = n' := by
  induction hn' with
  | single hc =>
    obtain ⟨c, hc, e⟩ := hf.exists_child h' hp hc
    exact ⟨c, .single hc, e⟩
  | tail _ hc ih =>
    obtain ⟨m, hm, rfl⟩ := ih
    obtain ⟨c, hc, e⟩ := hf.exists_child h' (.of_below (hp.below_trans hm)) hc
    exact ⟨c, hm.tail hc, e⟩

theorem below_iff (hp : t.Facing a a' f p p') (hn : t.Below a n) :
    t'.Below p' (f n) ↔ t.Below p n := by
  constructor
  · intro hn'
    obtain ⟨m, hm, e⟩ := hf.exists_below h' hp hn'
    exact hf.bijOn.injOn (hp.below_trans hm) hn e ▸ hm
  · exact hf.below_of_facing hp

include h

/-- **The children of a counterpart are the counterparts of the children.** -/
theorem children_eq (hp : t.Facing a a' f p p') : t'.children p' = (t.children p).map f := by
  have hasymm : Std.Asymm (TransGen t'.NextTo) :=
    ⟨fun _ _ hmn hnm => h'.not_nextTo_self (hmn.trans hnm)⟩
  have hsorted : ((t.children p).map f).Pairwise (TransGen t'.NextTo) :=
    List.pairwise_map.mpr ((h.pairwise_children p).imp_of_mem fun hm _ hmn =>
      hf.later (hp.below_of_child hm) hmn)
  refine (h'.pairwise_children p').eq_of_mem_iff hsorted fun c' => ?_
  rw [List.mem_map]
  constructor
  · exact hf.exists_child h' hp
  · rintro ⟨c, hc, rfl⟩
    exact hf.hasChild_of_facing hp hc

/-- **The walk over elements meets the counterparts**, in document order. -/
theorem descendants_eq (hp : t.Facing a a' f p p') :
    t'.descendants p' = (t.descendants p).map f := by
  induction p using h.induction_up generalizing p' with
  | ih p ih =>
    rw [h'.descendants_eq, h.descendants_eq, hf.children_eq h h' hp, List.flatMap_map,
      List.map_flatMap]
    refine List.flatMap_congr fun c hc => ?_
    have hbelow := hp.below_of_child hc
    rw [hf.isElement_eq hbelow]
    split_ifs
    · rw [List.map_cons, ih c hc (.of_below hbelow)]
    · rfl

/-! ## Combinators -/

/-- **A combinator leads between counterparts as it leads between nodes.** -/
theorem leads_iff (hm : t.Below a m) (hn : t.Below a n) {k : Combinator} :
    k.Leads t' (f m) (f n) ↔ k.Leads t m n := by
  obtain ⟨p, p', l₁, l₂, hl, hl', hbelow⟩ := exists_siblings h h' (hf.children_eq h h') hm
  cases k with
  | descendant => exact hf.below_iff h' (.of_below hm) hn
  | child =>
    have hfacing : t.Facing a a' f m (f m) := .of_below hm
    rw [Combinator.Leads, Combinator.Leads, HasChild, hf.children_eq h h' hfacing]
    exact hf.mem_map_iff (fun c hc => hfacing.below_of_child hc) hn
  | adjacentSibling =>
    rw [Combinator.Leads, Combinator.Leads, h.nextTo_iff hl, h'.nextTo_iff hl']
    cases l₂ with
    | nil => simp
    | cons d l₂ =>
      have hd := hf.bijOn.injOn.eq_iff (hbelow d List.mem_cons_self) hn
      simpa using hd
  | generalSibling =>
    rw [Combinator.Leads, Combinator.Leads, h.nextTo_trans_iff hl, h'.nextTo_trans_iff hl']
    exact hf.mem_map_iff hbelow hn

theorem visible_iff {n' : NodeId} : t'.Visible a' n' ↔ ∃ n, t.Visible a n ∧ f n = n' := by
  rw [← h'.mem_descendants, hf.descendants_eq h h' .context, List.mem_map]
  simp only [h.mem_descendants]

end

/-! ## Compounds -/

section

variable (hc : t.Coherent) (hc' : t'.Coherent)

include hc hc'

theorem holdsAt_simple_eq (hn : t.Below a n) (part : Simple) :
    part.holdsAt t' (f n) = part.holdsAt t n := by
  -- the number of attributes shows in a test only as whether there are any
  have hcount : 0 < t'.attributeCount (f n) ↔ 0 < t.attributeCount n := by
    rw [hc'.attributeCount_pos_iff, hc.attributeCount_pos_iff]
    simp only [hf.attribute_eq hn]
  cases part <;>
    simp only [Simple.holdsAt, carriesId, hf.tag_eq hn, hf.attribute_eq hn, hcount]

theorem holdsAt_eq (hn : t.Below a n) (c : Compound) : c.holdsAt t' (f n) = c.holdsAt t n := by
  have hparts : (fun part : Simple => part.holdsAt t' (f n)) = fun part => part.holdsAt t n :=
    funext (hf.holdsAt_simple_eq hc hc' hn)
  rw [Compound.holdsAt, Compound.holdsAt, hf.isElement_eq hn, hparts]

/-! ## Alternatives -/

variable (h : t.WellLinked kids) (h' : t'.WellLinked kids')

include h h'

theorem leadsOn_iff {rest : List (Combinator × Compound)} (hm : t.Below a m)
    (hn : t.Below a n) : LeadsOn t' a' rest (f m) (f n) ↔ LeadsOn t a rest m n := by
  induction rest generalizing m with
  | nil => exact hf.bijOn.injOn.eq_iff hm hn
  | cons s rest ih =>
    obtain ⟨k, c⟩ := s
    constructor
    · rintro ⟨b', hk, hv', hb, hbn⟩
      obtain ⟨b, hv, rfl⟩ := (hf.visible_iff h h').mp hv'
      rw [hf.leads_iff h h' hm hv.2.1] at hk
      rw [hf.holdsAt_eq hc hc' hv.2.1] at hb
      exact ⟨b, hk, hv, hb, (ih hv.2.1).mp hbn⟩
    · rintro ⟨b, hk, hv, hb, hbn⟩
      refine ⟨f b, (hf.leads_iff h h' hm hv.2.1).mpr hk, (hf.visible_iff h h').mpr ⟨b, hv, rfl⟩,
        ?_, (ih hv.2.1).mpr hbn⟩
      rw [hf.holdsAt_eq hc hc' hv.2.1]
      exact hb

theorem matches_iff (alt : Alternative) (hn : t.Below a n) :
    alt.Matches t' a' (f n) ↔ alt.Matches t a n := by
  constructor
  · rintro ⟨b', hv', hb, hbn⟩
    obtain ⟨b, hv, rfl⟩ := (hf.visible_iff h h').mp hv'
    rw [hf.holdsAt_eq hc hc' hv.2.1] at hb
    exact ⟨b, hv, hb, (hf.leadsOn_iff hc hc' h h' hv.2.1 hn).mp hbn⟩
  · rintro ⟨b, hv, hb, hbn⟩
    refine ⟨f b, (hf.visible_iff h h').mpr ⟨b, hv, rfl⟩, ?_,
      (hf.leadsOn_iff hc hc' h h' hv.2.1 hn).mpr hbn⟩
    rw [hf.holdsAt_eq hc hc' hv.2.1]
    exact hb

/-! ## Answers -/

open Classical in
theorem filter_matches_eq (alt : Alternative) :
    (t'.descendants a').filter (alt.Matches t' a') =
      ((t.descendants a).filter (alt.Matches t a)).map f := by
  rw [hf.descendants_eq h h' .context, List.filter_map]
  refine congrArg (List.map f) (List.filter_congr fun n hn => decide_eq_decide.mpr ?_)
  exact hf.matches_iff hc hc' h h' alt (h.mem_descendants.mp hn).2.1

/-- **The answers below two contexts are counterparts.** -/
theorem toList_all (s : Selector) : (s.all t' a').toList = (s.all t a).toList.map f := by
  classical
  have hinj : Set.InjOn f {n | n ∈ s.alternatives.flatMap fun alt =>
      (t.descendants a).filter (alt.Matches t a)} := by
    refine hf.bijOn.injOn.mono fun n hn => ?_
    obtain ⟨alt, -, hn⟩ := List.mem_flatMap.mp hn
    exact (h.mem_descendants.mp (List.mem_filter.mp hn).1).2.1
  rw [h.all_eq_matches, h'.all_eq_matches]
  refine Eq.trans (congrArg List.eraseDups ?_) (eraseDups_map hinj)
  rw [List.map_flatMap]
  exact List.flatMap_congr fun alt _ => hf.filter_matches_eq hc hc' h h' alt

end

end Corresponds

/-- **Queries see what lies below the context and nothing else.** -/
theorem queryAll_eq_map (changes changes' : List Change) (context context' : NodeId)
    (f : NodeId → NodeId) (hf : (after changes).Corresponds (after changes') context context' f)
    (text : String) :
    ((after changes').queryAll context' text).map NodeList.toList =
      ((after changes).queryAll context text).map fun nodes => nodes.toList.map f := by
  obtain ⟨kids, h⟩ := wellLinked_after changes
  obtain ⟨kids', h'⟩ := wellLinked_after changes'
  cases hs : Selector.parse text with
  | error e => rw [queryAll_of_error hs, queryAll_of_error hs, Except.map, Except.map]
  | ok s =>
    rw [queryAll_of_ok hs, queryAll_of_ok hs, Except.map, Except.map,
      hf.toList_all (coherent_after changes) (coherent_after changes') h h']

/-- The items of a list, and the same items in a document with more nodes. -/
theorem queryAll_eq_map_items :
    let changes := [.createElement "ul", .createElement "li", .createText "x", .createElement "li",
      .insert .root (.slot 1) none, .insert (.slot 1) (.slot 2) none,
      .insert (.slot 1) (.slot 3) none, .insert (.slot 1) (.slot 4) none,
      .setAttribute (.slot 2) "class" "b", .setAttribute (.slot 2) "id" "i"]
    let changes' := [.createElement "li", .createText "y", .createElement "p", .createElement "li",
      .insert .root (.slot 4) none, .insert .root (.slot 1) none,
      .insert .root (.slot 2) (some (.slot 1)), .writeAttribute (.slot 4) "id" "i",
      .writeAttribute (.slot 4) "class" "b"]
    let f : NodeId → NodeId := fun n =>
      if n = .slot 2 then .slot 4 else if n = .slot 3 then .slot 2 else .slot 1
    let t := after changes
    let t' := after changes'
    t.Corresponds t' (.slot 1) .root f ∧
      (t'.queryAll .root ".b + li").map NodeList.toList =
        (t.queryAll (.slot 1) ".b + li").map fun nodes => nodes.toList.map f := by
  intro changes changes' f t t'
  obtain ⟨kids, h⟩ : ∃ kids, t.WellLinked kids := wellLinked_after changes
  obtain ⟨kids', h'⟩ : ∃ kids', t'.WellLinked kids' := wellLinked_after changes'
  have hbelow : ∀ n, t.Below (.slot 1) n ↔ n ∈ [.slot 2, .slot 3, .slot 4] := by
    have hlist : t.ids.filter (t.isDescendantOf · (.slot 1)) = [.slot 2, .slot 3, .slot 4] := by
      decide
    exact fun n => hlist ▸ h.mem_filter_ids.symm
  have hbelow' : ∀ n, t'.Below .root n ↔ n ∈ [.slot 1, .slot 2, .slot 4] := by
    have hlist : t'.ids.filter (t'.isDescendantOf · .root) = [.slot 1, .slot 2, .slot 4] := by
      decide
    exact fun n => hlist ▸ h'.mem_filter_ids.symm
  -- two attributes of an element, given one after the other
  have hgiven : ∀ {t₀ : Tree} (m : NodeId), t₀.Coherent → t₀.isElement m = true →
      ∀ {n}, t₀.attributeCount n = 0 → ∀ k₁ v₁ k₂ v₂ name,
        ((t₀.modifyAttributes m fun a => (a.set k₁ v₁).2).modifyAttributes m
          fun a => (a.set k₂ v₂).2).attribute? n name =
        if n = m ∧ name = k₂ then some v₂ else if n = m ∧ name = k₁ then some v₁ else none := by
    intro t₀ m h₀ hm n hn k₁ v₁ k₂ v₂ name
    have h₁ := h₀.modifyAttributes (n := m) fun a ha => ha.set k₁ v₁
    rw [h₁.attribute?_set, h₀.attribute?_set, isElement_modifyAttributes, hm, attribute?_eq_none hn]
    simp only [true_and]
  have hbij : Set.BijOn f {n | t.Below (.slot 1) n} {n | t'.Below .root n} := by
    simp only [hbelow, hbelow']
    refine ⟨?_, ?_, ?_⟩ <;>
      simp only [Set.MapsTo, Set.InjOn, Set.SurjOn, Set.subset_def, Set.mem_image,
        Set.mem_ofPred_eq] <;>
      decide
  have hf : t.Corresponds t' (.slot 1) .root f := by
    refine h.corresponds_of_children h' hbij (by decide) ?_ ?_ ?_ <;> simp only [hbelow]
    · decide
    · decide
    · intro n hn name
      have hnone : ∀ n ∈ [.slot 2, .slot 3, .slot 4],
          (after (changes.take 8)).attributeCount n = 0 ∧
            (after (changes'.take 7)).attributeCount (f n) = 0 ∧
              (f n = .slot 4 ↔ n = .slot 2) := by decide
      obtain ⟨hn, hfn, hiff⟩ := hnone n hn
      have hname : t.attribute? n name = if n = .slot 2 ∧ name = "id" then some "i"
          else if n = .slot 2 ∧ name = "class" then some "b" else none :=
        hgiven (.slot 2) (coherent_after _) (by decide) hn "class" "b" "id" "i" name
      have hname' : t'.attribute? (f n) name = if f n = .slot 4 ∧ name = "class" then some "b"
          else if f n = .slot 4 ∧ name = "id" then some "i" else none :=
        hgiven (.slot 4) (coherent_after _) (by decide) hfn "id" "i" "class" "b" name
      rw [hname, hname']
      grind
  exact ⟨hf, queryAll_eq_map changes changes' (.slot 1) .root f hf ".b + li"⟩

end Tree

end MarkupQuery
