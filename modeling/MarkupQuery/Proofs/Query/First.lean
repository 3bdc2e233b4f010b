import MarkupQuery.Proofs.Query.IdIndex
import MarkupQuery.Proofs.Selector.Parse
import MarkupQuery.Proofs.Tree.Owners

/-!
# The first node

The first node of the document is looked for with the help of the id index, all nodes without it.
The index knows elements that no walk over elements comes to: those below a node of another kind.
Only such an element can make the two answers differ.

* `Tree.Hidden`: below a node, but not visible from there;
* `Search.hidden_along`: a chain that begins at hidden nodes stays with them;
* **`Search.listed_cases`**: an alternative lists what it should, or hidden nodes only;
* `Selector.first?_eq_iff`: when the first node is the first of all;
* **`Tree.queryFirst_eq_iff`**: the same of texts and of trees that come of tracked changes.
-/

namespace MarkupQuery

open Relation

/-! ## Hidden elements -/

/-- An element strictly below `a`, with something else than elements in between. -/
def Tree.Hidden (t : Tree) (a n : NodeId) : Prop :=
  t.isElement n = true ∧ t.Below a n ∧ ¬ t.Visible a n

namespace Search

variable {q : Search} {kids : NodeId → List NodeId} {left : List NodeId} {n : NodeId}
  {c : Compound} (h : q.tree.WellLinked kids)

include h

theorem leads_of_mem_next {k : Combinator} (hn : n ∈ q.next left k c) :
    (∃ a ∈ left, k.Leads q.tree a n) ∧ q.tree.isElement n = true ∧
      (k ≠ .descendant → q.tree.Below q.context n) := by
  obtain ⟨-, a, ha, hk, hv⟩ := (mem_next h).mp hn
  refine ⟨⟨a, ha, hk⟩, hv.1, fun hd => ?_⟩
  rw [if_neg hd] at hv
  exact hv.2.1

theorem hidden_along (hl : ∀ n ∈ left, q.tree.Hidden q.context n)
    (rest : List (Combinator × Compound)) :
    ∀ n ∈ q.along left rest, q.tree.Hidden q.context n := by
  induction rest generalizing left with
  | nil => exact hl
  | cons s rest ih =>
    refine ih fun n hn => ?_
    obtain ⟨⟨a, ha, hk⟩, he, hbelow⟩ := leads_of_mem_next h hn
    obtain ⟨hae, hab, hav⟩ := hl a ha
    refine ⟨he, ?_, fun hv => hav (h.visible_of_leads hk hv hae hab)⟩
    by_cases hs : s.1 = .descendant
    · rw [hs] at hk
      exact hab.trans hk
    · exact hbelow hs

open Classical in
/-- **An alternative lists the nodes that it describes, or hidden nodes from the index.** -/
theorem listed_cases {a : Alternative} (hi : ∀ n, q.indexed? a.head = some n →
      ∀ m, q.tree.Visible q.context m → a.head.holdsAt q.tree m = true → m = n) :
    q.listed a = (q.tree.descendants q.context).filter (a.Matches q.tree q.context) ∨
      (∃ n, q.indexed? a.head = some n ∧ q.tree.Hidden q.context n) ∧
        (q.tree.descendants q.context).filter (a.Matches q.tree q.context) = [] ∧
        ∀ m ∈ q.listed a, q.tree.Hidden q.context m := by
  cases hn : q.indexed? a.head with
  | none => exact .inl (listed_eq_filter h (heads_of_not_asked hn))
  | some n =>
    obtain ⟨-, -, hb, hc⟩ := (indexed?_eq_some h).mp hn
    by_cases hv : q.tree.Visible q.context n
    · refine .inl (listed_eq_filter h (heads_eq_filter h fun n' hn' => ?_))
      obtain rfl := Option.some.inj (hn.symm.trans hn')
      exact ⟨hv, hi n hn⟩
    · have hhidden : q.tree.Hidden q.context n := ⟨Compound.isElement_of_holdsAt hc, hb, hv⟩
      refine .inr ⟨⟨n, rfl, hhidden⟩, ?_, ?_⟩
      · refine List.filter_eq_nil_iff.mpr fun m _ => ?_
        rw [decide_eq_true_iff]
        rintro ⟨b, hb, hbc, -⟩
        exact hv (hi n hn b hb hbc ▸ hb)
      · rw [listed, heads, hn]
        exact hidden_along h (List.forall_mem_singleton.mpr hhidden) a.tail

theorem item?_run (s : Selector) (hl : q.options.limit ≠ some 0) :
    (q.run s).item? 0 = (s.alternatives.flatMap q.listed).head? := by
  have key : ∀ xs : List NodeId, (atMost q.options.limit xs.eraseDups)[0]? = xs.head? := by
    intro xs
    have hfirst : xs.eraseDups[0]? = xs.head? := by
      cases xs with
      | nil => rfl
      | cons x xs => rw [List.eraseDups_cons]; rfl
    cases hq : q.options.limit with
    | none => exact hfirst
    | some k =>
      have hk : 0 < k := Nat.pos_of_ne_zero fun e => hl (hq.trans (congrArg some e))
      rw [atMost, List.getElem?_take_of_lt hk, hfirst]
  rw [NodeList.item?, ← Array.getElem?_toList]
  exact (congrArg (·[0]?) (run_toList h s)).trans (key _)

end Search

/-! ## Selectors -/

/-- Lists made of parts begin alike unless the first begins in `P`. -/
theorem head?_flatMap_eq_iff {α β : Type} {f g : α → List β} {P : β → Prop} {as : List α}
    (hfg : ∀ a ∈ as, f a = g a ∧ (∀ x ∈ g a, ¬ P x) ∨ g a = [] ∧ ∀ x ∈ f a, P x) :
    (as.flatMap f).head? = (as.flatMap g).head? ↔ ∀ x ∈ (as.flatMap f).head?, ¬ P x := by
  induction as with
  | nil => simp
  | cons a as ih =>
    obtain ⟨ha, has⟩ := List.forall_mem_cons.mp hfg
    rw [List.flatMap_cons, List.flatMap_cons]
    rcases ha with ⟨he, hg⟩ | ⟨hg, hf⟩
    · rw [he]
      cases hga : g a with
      | nil => exact ih has
      | cons x xs => simpa using hg x (by simp [hga])
    · rw [hg, List.nil_append]
      cases hfa : f a with
      | nil => exact ih has
      | cons x xs =>
        -- the first list begins in `P`, and nothing in the second one lies there
        have hx : P x := hf x (by simp [hfa])
        have hnot : ∀ y ∈ as.flatMap g, ¬ P y := by
          intro y hy
          obtain ⟨b, hb, hy⟩ := List.mem_flatMap.mp hy
          rcases has b hb with ⟨-, hb⟩ | ⟨hb, -⟩
          · exact hb y hy
          · rw [hb] at hy
            exact absurd hy List.not_mem_nil
        refine iff_of_false (fun e => ?_) fun hn => hn x rfl hx
        exact hnot x (List.mem_of_head? e.symm) hx

namespace Selector

variable {t : Tree} {kids : NodeId → List NodeId} {context : NodeId} {s : Selector}

/-- The search for the first node. -/
def searchFirst (t : Tree) (context : NodeId) : Search :=
  { tree := t, context, lookup := t.soleOwner?, options := .firstOnly }

/-- The search for all nodes. -/
def searchAll (t : Tree) (context : NodeId) : Search :=
  { tree := t, context, lookup := t.soleOwner?, options := {} }

section

variable (h : t.WellLinked kids)

include h

theorem first?_eq_head? (context : NodeId) (s : Selector) :
    s.first? t context = (s.alternatives.flatMap (searchFirst t context).listed).head? :=
  Search.item?_run (q := searchFirst t context) h s (by simp [searchFirst, QueryOptions.firstOnly])

open Classical in
theorem all_eq_head? (context : NodeId) (s : Selector) : (s.all t context).item? 0 =
    (s.alternatives.flatMap fun a => (t.descendants context).filter (a.Matches t context)).head? := by
  refine (Search.item?_run (q := searchAll t context) h s (by simp [searchAll])).trans ?_
  refine congrArg List.head? (congrArg (List.flatMap · s.alternatives) (funext fun a => ?_))
  exact Search.listed_eq_filter h (Search.heads_of_not_asked (by simp [searchAll, Search.indexed?]))

variable (ht : t.Tracks) (hs : ∀ a ∈ s.alternatives, ∀ v ∈ a.head.id?, v ≠ "")

include ht hs

theorem sole_of_indexed? : ∀ a ∈ s.alternatives,
    ∀ n, (searchFirst t context).indexed? a.head = some n →
      ∀ m, t.Visible context m → a.head.holdsAt t m = true → m = n := by
  intro a ha n hn m _ hm
  obtain ⟨-, ⟨v, hv, hl⟩, -, -⟩ :=
    (Search.indexed?_eq_some (q := searchFirst t context) h).mp hn
  exact ht.eq_of_soleOwner (hs a ha v hv) hl (Compound.carriesId_of_holdsAt hv hm)

theorem first?_eq_all (hi : ∀ a ∈ s.alternatives,
    ∀ n, (searchFirst t context).indexed? a.head = some n → ¬ t.Hidden context n) :
    s.first? t context = (s.all t context).item? 0 := by
  rw [first?_eq_head? h, all_eq_head? h]
  refine congrArg List.head? (List.flatMap_congr fun a ha => ?_)
  rcases Search.listed_cases (q := searchFirst t context) h
    (sole_of_indexed? h ht hs a ha) with he | ⟨⟨n, hn, hh⟩, -⟩
  · exact he
  · exact absurd hh (hi a ha n hn)

/-- **The first node is the first of all exactly when it is not hidden.** -/
theorem first?_eq_iff : s.first? t context = (s.all t context).item? 0 ↔
    ∀ n, s.first? t context = some n → ¬ t.Hidden context n := by
  rw [first?_eq_head? h, all_eq_head? h]
  refine head?_flatMap_eq_iff (P := t.Hidden context) fun a ha => ?_
  rcases Search.listed_cases (q := searchFirst t context) h
    (sole_of_indexed? h ht hs a ha) with he | ⟨-, hnil, hh⟩
  · refine .inl ⟨he, fun m hm hh => hh.2.2 ?_⟩
    exact h.mem_descendants.mp (List.mem_filter.mp hm).1
  · exact .inr ⟨hnil, hh⟩

end

end Selector

/-! ## Texts -/

theorem IsIdent.ne_empty {v : String} (h : IsIdent v) : v ≠ "" := by
  rintro rfl
  obtain ⟨c, cs, hv, -⟩ := h
  cases hv

theorem Selector.isIdent_of_parse {text : String} {s : Selector}
    (hs : Selector.parse text = .ok s) : ∀ a ∈ s.alternatives, ∀ v ∈ a.head.id?, IsIdent v := by
  intro a ha v hv
  have hw := (Selector.read?_trim.mp (Selector.parse_eq_ok.mp hs)).1
  exact (hw a ha).1.parts _ (Compound.mem_of_id? hv)

/-- The selector of an id alone. -/
def Selector.ofId (v : String) : Selector := ⟨⟨⟨[.id v]⟩, []⟩, []⟩

theorem Selector.parse_ofId {v : String} (hv : IsIdent v) :
    Selector.parse ("#" ++ v) = .ok (ofId v) := by
  rw [Selector.parse_eq_ok, Selector.read?_trim]
  refine ⟨?_, [], _, [], by simp [Blanks], ?_, by simp [Blanks], (List.append_nil _).symm⟩
  · refine List.forall_mem_singleton.mpr ⟨⟨by simp [ofId], ?_, .singleton _⟩, ?_⟩
    · exact List.forall_mem_singleton.mpr hv
    · exact fun s hs => absurd hs List.not_mem_nil
  · refine ⟨("#" ++ v).toList, [], ⟨[], rfl, ?_⟩, rfl, (List.append_nil _).symm⟩
    simp [ofId, Compound.text_toList, written, Simple.text]

namespace Tree

variable {t : Tree} {kids : NodeId → List NodeId} {context n : NodeId} {v : String}

/-- The query for the first node of a text gives the first of all its nodes. -/
def FirstOfAll (t : Tree) (context : NodeId) (text : String) : Prop :=
  t.queryFirst context text = (t.queryAll context text).map (·.item? 0)

section

variable {text : String} {s : Selector} {e : SelectorError}

theorem queryFirst_of_ok (hs : Selector.parse text = .ok s) :
    t.queryFirst context text = .ok (s.first? t context) := by
  rw [queryFirst, queryAllWith, queryAllIndexed, hs]
  rfl

theorem queryAll_of_ok (hs : Selector.parse text = .ok s) :
    t.queryAll context text = .ok (s.all t context) := by
  rw [queryAll, queryAllWith, queryAllIndexed, hs]
  rfl

theorem queryFirst_of_error (he : Selector.parse text = .error e) :
    t.queryFirst context text = .error e := by
  rw [queryFirst, queryAllWith, queryAllIndexed, he]
  rfl

theorem queryAll_of_error (he : Selector.parse text = .error e) :
    t.queryAll context text = .error e := by
  rw [queryAll, queryAllWith, queryAllIndexed, he]
  rfl

theorem firstOfAll_of_error (he : Selector.parse text = .error e) :
    t.FirstOfAll context text := by
  rw [FirstOfAll, queryFirst_of_error he, queryAll_of_error he]
  rfl

theorem firstOfAll_iff_of_ok (hs : Selector.parse text = .ok s) :
    t.FirstOfAll context text ↔ s.first? t context = (s.all t context).item? 0 := by
  rw [FirstOfAll, queryFirst_of_ok hs, queryAll_of_ok hs]
  exact ⟨Except.ok.inj, congrArg _⟩

end

theorem holdsAt_id (t : Tree) (n : NodeId) (v : String) :
    (Compound.mk [.id v]).holdsAt t n = t.carriesId n v := by
  rw [Compound.holdsAt, List.all_cons, List.all_nil, Bool.and_true, Simple.holdsAt]
  cases hn : t.carriesId n v with
  | false => simp
  | true =>
    have ha : t.attribute? n "id" = some v := of_decide_eq_true hn
    simp [isElement_of_carriesId hn, attributeCount_pos ha]

theorem queryFirst_ofId (h : t.WellLinked kids) (hv : IsIdent v) (hl : t.soleOwner? v = some n)
    (hn : t.carriesId n v = true) (hb : t.Below .root n) :
    t.queryFirst .root ("#" ++ v) = .ok (some n) := by
  have hi : (Selector.searchFirst t .root).indexed? ⟨[.id v]⟩ = some n :=
    (Search.indexed?_eq_some (q := Selector.searchFirst t .root) h).mpr
      ⟨⟨rfl, rfl, rfl⟩, ⟨v, rfl, hl⟩, hb, (holdsAt_id t n v).trans hn⟩
  rw [queryFirst_of_ok (Selector.parse_ofId hv), Selector.first?_eq_head? h]
  simp only [Selector.ofId, Selector.alternatives, List.flatMap_cons, List.flatMap_nil,
    List.append_nil, Search.listed, Search.along, Search.heads, hi, List.head?_cons]

/-- **The first node is the first of all, unless the index knows it and it is hidden.** -/
theorem queryFirst_eq_iff (changes : List Change) (hc : ∀ c ∈ changes, c.Tracked) :
    let t := Tree.after changes
    (∀ context text e,
      t.queryFirst context text = .error e ↔ t.queryAll context text = .error e) ∧
    (∀ context text, context ≠ .root → t.FirstOfAll context text) ∧
    (∀ context text, t.FirstOfAll context text ↔
      ∀ n, t.queryFirst context text = .ok (some n) → ¬ t.Hidden context n) ∧
    ((∀ context text, t.FirstOfAll context text) ↔
      ∀ v n, IsIdent v → t.soleOwner? v = some n → t.carriesId n v = true →
        ¬ t.Hidden .root n) := by
  intro t
  obtain ⟨kids, h⟩ : ∃ kids, t.WellLinked kids := wellLinked_after changes
  have ht : t.Tracks := tracks_after changes hc
  have hids : ∀ {text s}, Selector.parse text = .ok s →
      ∀ a ∈ s.alternatives, ∀ v ∈ a.head.id?, v ≠ "" :=
    fun hs a ha v hv => (Selector.isIdent_of_parse hs a ha v hv).ne_empty
  have hiff : ∀ context text, t.FirstOfAll context text ↔
      ∀ n, t.queryFirst context text = .ok (some n) → ¬ t.Hidden context n := by
    intro context text
    cases hs : Selector.parse text with
    | error e => simp [firstOfAll_of_error hs, queryFirst_of_error hs]
    | ok s =>
      rw [firstOfAll_iff_of_ok hs, queryFirst_of_ok hs, Selector.first?_eq_iff h ht (hids hs)]
      simp
  refine ⟨fun context text e => ?_, fun context text hr => ?_, hiff,
    fun hall v n hv hl hn hh => ?_, fun hno context text => ?_⟩
  · cases hs : Selector.parse text with
    | error e' => simp [queryFirst_of_error hs, queryAll_of_error hs]
    | ok s => simp [queryFirst_of_ok hs, queryAll_of_ok hs]
  · cases hs : Selector.parse text with
    | error e => exact firstOfAll_of_error hs
    | ok s =>
      rw [firstOfAll_iff_of_ok hs]
      refine Selector.first?_eq_all h ht (hids hs) fun a _ n hn => ?_
      exact absurd ((Search.indexed?_eq_some h).mp hn).1.2.2 hr
  -- the selector of the id alone comes to the node through the index
  · exact (hiff .root _).mp (hall .root _) n (queryFirst_ofId h hv hl hn hh.2.1) hh
  · cases hs : Selector.parse text with
    | error e => exact firstOfAll_of_error hs
    | ok s =>
      rw [firstOfAll_iff_of_ok hs]
      refine Selector.first?_eq_all h ht (hids hs) fun a ha n hn => ?_
      obtain ⟨⟨-, -, hr⟩, ⟨v, hv, hl⟩, -, hc⟩ := (Search.indexed?_eq_some h).mp hn
      obtain rfl : context = .root := hr
      exact hno v n (Selector.isIdent_of_parse hs a ha v hv) hl
        (Compound.carriesId_of_holdsAt hv hc)

/-- The index knows a `div` below a text, the walk over elements does not. -/
theorem queryFirst_eq_iff_div_in_text :
    let changes := [.createText "x", .createElement "div", .insert .root (.slot 1) none,
      .insert (.slot 1) (.slot 2) none, .setAttribute (.slot 2) "id" "x"]
    (after changes).queryFirst .root "#x" = .ok (some (.slot 2)) ∧
      ¬ (after changes).FirstOfAll .root "#x" := by
  intro changes
  obtain ⟨kids, h⟩ := wellLinked_after changes
  have htracked : ∀ c ∈ changes, c.Tracked := by simp [changes, Change.Tracked]
  have hbelow : (after changes).Below .root (.slot 2) := by
    refine .tail (.single (b := .slot 1) ?_) ?_
    · exact (by decide : NodeId.slot 1 ∈ (after changes).children .root)
    · exact (by decide : NodeId.slot 2 ∈ (after changes).children (.slot 1))
  have hhidden : (after changes).Hidden .root (.slot 2) := by
    refine ⟨by decide, hbelow, fun hv => ?_⟩
    exact absurd (h.mem_descendants.mpr hv) (by decide)
  obtain ⟨hl, hn⟩ : (after changes).soleOwner? "x" = some (.slot 2) ∧
      (after changes).carriesId (.slot 2) "x" = true := by
    have hset : after changes = (after changes.dropLast).withAttribute (.slot 2) "id" "x" := by
      have hlast : changes = changes.dropLast ++ [.setAttribute (.slot 2) "id" "x"] := rfl
      refine (congrArg after hlast).trans ((after_concat _ _).trans ?_)
      have hf : (after changes.dropLast).attributeFault? (.slot 2) = none := by decide
      rw [Change.apply, setAttribute, hf]
      rfl
    have ht := tracks_after changes.dropLast fun c hc => htracked c (List.mem_of_mem_dropLast hc)
    have hnone : (after changes.dropLast).owners "x" = [] :=
      Std.HashMap.getD_of_isEmpty (by decide)
    rw [hset]
    exact ⟨soleOwner?_withAttribute (by decide) hnone _, ht.carriesId_withAttribute (by decide) "x"⟩
  have hx : IsIdent "x" := ⟨'x', [], rfl, rfl, by simp⟩
  have hq : (after changes).queryFirst .root "#x" = .ok (some (.slot 2)) := by
    rw [show "#x" = "#" ++ "x" from rfl]
    exact queryFirst_ofId h hx hl hn hbelow
  exact ⟨hq, fun hf => ((queryFirst_eq_iff changes htracked).2.2.1 .root "#x").mp hf _ hq hhidden⟩

end Tree

end MarkupQuery
