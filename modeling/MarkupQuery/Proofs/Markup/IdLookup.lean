import Mathlib.Data.List.Permutation
import MarkupQuery.Proofs.Markup.Load
import MarkupQuery.Proofs.Query.First

/-!
# Looking for ids

There are three ways to an element with a given id: the index of a document, the record of sole
owners that the search for one node asks, and the walk over all elements. On a document as it is
loaded they come to the same elements.

* `Loading.elementById?_eq`: the index leads to the first element that carries a value;
* `Loading.visible`: every element is visible from the document node;
* `Loading.all_ofId`, `Loading.first?_ofId`: what the selector of an id finds;
* **`Document.idLookups_agree`**: all of this for every forest of items that is loaded.
-/

namespace MarkupQuery

open Relation

namespace Tree.Loading

variable {t : Tree} {n : NodeId} {v : String} (h : t.Loading)

include h

theorem elementById?_eq (hpre : t.preorder .root = t.ids) (v : String) :
    (Document.ofTree t).elementById? v = t.firstWithId? v := by
  have htree : (Document.ofTree t).tree = t := rfl
  rw [Document.elementById?, htree]
  cases hn : t.indexedElement? v with
  | none => rfl
  | some n =>
    dsimp only
    split_ifs with hc
    · obtain ⟨hc, -⟩ := Bool.and_eq_true_iff.mp hc
      have hv : v ≠ "" := by
        rintro rfl
        rw [h.indexesFirst.empty] at hn
        cases hn
      have hfirst := h.indexesFirst.first v hv
      rw [hn, Option.filter_some, if_pos hc] at hfirst
      rw [hfirst, firstWithId?, hpre]
    · rfl

theorem visible (hn : t.isElement n = true) : t.Visible .root n := by
  refine h.linked.visible_of_parentsAreElements h.parents ?_ hn
  have hn' := reflTransGen_iff_eq_or_transGen.mp (h.attached n (contains_of_isElement hn))
  refine hn'.resolve_left ?_
  rintro rfl
  rw [isElement_eq_content?, h.linked.content_root] at hn
  cases hn

/-- **The selector of an id finds all elements that carry it.** -/
theorem all_ofId (v : String) :
    ((Selector.ofId v).all t .root).toList = (t.preorder .root).filter (t.carriesId · v) := by
  classical
  have hnone : (Selector.searchAll t .root).indexed? ⟨[.id v]⟩ = none := by
    simp [Selector.searchAll, Search.indexed?]
  have hlisted : (Selector.searchAll t .root).listed ⟨⟨[.id v]⟩, []⟩ =
      (t.descendants .root).filter (t.carriesId · v) :=
    (Search.heads_of_not_asked hnone).trans (List.filter_congr fun n _ => holdsAt_id t n v)
  refine (Search.run_toList (q := Selector.searchAll t .root) h.linked (.ofId v)).trans ?_
  rw [show (Selector.ofId v).alternatives = [⟨⟨[.id v]⟩, []⟩] from rfl, List.flatMap_singleton,
    hlisted]
  change ((t.descendants .root).filter (t.carriesId · v)).eraseDups = _
  rw [eraseDups_of_nodup ((h.linked.nodup_descendants _).filter _), h.linked.descendants_eq_filter,
    List.filter_filter]
  refine List.filter_congr fun n _ => ?_
  rw [Bool.eq_iff_iff, Bool.and_eq_true, decide_eq_true_iff]
  exact and_iff_left_of_imp fun hn => h.visible (isElement_of_carriesId hn)

theorem first?_ofId (hv : v ≠ "") : (Selector.ofId v).first? t .root = t.firstWithId? v := by
  have hids : ∀ a ∈ (Selector.ofId v).alternatives, ∀ w ∈ a.head.id?, w ≠ "" :=
    List.forall_mem_singleton.mpr fun w hw => Option.some.inj hw ▸ hv
  rw [Selector.first?_eq_all h.linked h.tracks hids fun a _ n hn hh => hh.2.2 (h.visible hh.1)]
  rw [NodeList.item?, ← Array.getElem?_toList]
  refine (congrArg (·[0]?) (h.all_ofId v)).trans ?_
  rw [← List.head?_eq_getElem?, List.head?_filter]
  rfl

end Tree.Loading

/-- **All ways to an id lead to the same elements of a loaded document.** -/
theorem Document.idLookups_agree (o : LoadOptions) (items : List Item) (v : String) :
    ∃ d, ofItems o items = .ok d ∧
      (∀ read text, read text = .ok items → ofText read o text = .ok d) ∧
      d.elementById? v = (d.tree.preorder .root).find? (d.tree.carriesId · v) ∧
      (IsIdent v → d.queryFirst ("#" ++ v) = .ok (d.elementById? v) ∧
        ∃ l, d.queryAll ("#" ++ v) = .ok l ∧
          l.toList = (d.tree.preorder .root).filter (d.tree.carriesId · v)) := by
  obtain ⟨t, hok, h, hpre⟩ := Tree.loading_addWaiting o items
  have hd : ofItems o items = .ok (ofTree t) := ofItems_eq_ok hok
  have hlookup := h.elementById?_eq hpre v
  refine ⟨ofTree t, hd, fun _ _ => ofText_eq_ok hd, hlookup, fun hv => ⟨?_, ?_⟩⟩
  · rw [hlookup, ← h.first?_ofId hv.ne_empty]
    exact Tree.queryFirst_of_ok (Selector.parse_ofId hv)
  · exact ⟨_, Tree.queryAll_of_ok (Selector.parse_ofId hv), h.all_ofId v⟩

theorem Document.idLookups_agree_twice :
    ∃ d, ofItems {} [.element "div" [⟨"id", "x"⟩] [] [.element "p" [⟨"id", "x"⟩] [] []]] = .ok d ∧
      d.elementById? "x" = some (.slot 1) ∧ d.queryFirst "#x" = .ok (some (.slot 1)) ∧
      ∃ l, d.queryAll "#x" = .ok l ∧ l.toList = [.slot 1, .slot 2] := by
  let items : List Item := [.element "div" [⟨"id", "x"⟩] [] [.element "p" [⟨"id", "x"⟩] [] []]]
  obtain ⟨d, hd, -, hfirst, hquery⟩ := idLookups_agree {} items "x"
  obtain ⟨hqueryFirst, l, hl, hall⟩ := hquery ⟨'x', [], rfl, rfl, by simp⟩
  have hpre : d.tree.preorder .root = [.root, .slot 1, .slot 2] :=
    apply_of_ofItems hd (f := (·.tree.preorder .root)) (by cbv)
  have hcontents : d.tree.contents = [.document,
      .element ⟨"div", (Attributes.empty.set "id" "x").2⟩,
      .element ⟨"p", (Attributes.empty.set "id" "x").2⟩] :=
    apply_of_ofItems hd (f := (·.tree.contents)) (by cbv)
  have hid : (Attributes.empty.set "id" "x").2.get? "id" = some "x" := by
    rw [Attributes.coherent_empty.get?_set, if_pos rfl]
  have hcarries : ∀ i, d.tree.carriesId (.slot i) "x" = decide
      (((d.tree.contents[i]?.bind Content.element?).bind (·.attributes.get? "id")) = some "x") := by
    intro i
    rw [Tree.carriesId, Tree.attribute?, Tree.element?_eq_content?, Tree.content?_slot]
  have hroot : d.tree.carriesId .root "x" = false := by
    rw [NodeId.root, hcarries, hcontents]
    rfl
  have hdiv : d.tree.carriesId (.slot 1) "x" = true := by
    rw [hcarries, hcontents]
    exact decide_eq_true hid
  have hp : d.tree.carriesId (.slot 2) "x" = true := by
    rw [hcarries, hcontents]
    exact decide_eq_true hid
  rw [hpre] at hfirst hall
  have hone : d.elementById? "x" = some (.slot 1) := by
    rw [hfirst, List.find?_cons, hroot, List.find?_cons, hdiv]
  refine ⟨d, hd, hone, hone ▸ hqueryFirst, l, hl, ?_⟩
  rw [hall, List.filter_cons, hroot, List.filter_cons, hdiv, List.filter_cons, hp]
  rfl

end MarkupQuery
