import Mathlib.Data.List.Permutation
import MarkupQuery.Proofs.Markup.Load
import MarkupQuery.Proofs.Tree.DocumentOrder

/-!
# Documents that change

A document that is loaded, or begun empty, may be changed in any way. Its index of ids is mended
only when an id is given, so that an entry may be missing, or lead to an element that has left the
document or changed its id. An entry is therefore looked at again before it is trusted, and without
a good one the whole document is searched.

* `Tree.changed`: a tree after changes, with `Document.exists_changes_of_ofItems`: what is loaded
  comes of changes, too;
* `WellLinked.isConnected_iff`: the way up from a node and the ways down from the document agree;
* `Document.elementById?_cases`: an entry that is good, or the first element of the document;
* **`Document.elementById?_of_changed`**: what is found after any changes.
-/

namespace MarkupQuery

open Relation

/-! ## What is loaded comes of changes -/

theorem exists_of_bind_eq_ok {ε α β : Type} {x : Except ε α} {f : α → Except ε β} {b : β}
    (h : x.bind f = .ok b) : ∃ a, x = .ok a ∧ f a = .ok b := by
  cases x with
  | error e => cases h
  | ok a => exact ⟨a, rfl, h⟩

theorem exists_of_map_eq_ok {ε α β : Type} {x : Except ε α} {f : α → β} {b : β}
    (h : x.map f = .ok b) : ∃ a, x = .ok a ∧ f a = b := by
  cases x with
  | error e => cases h
  | ok a => exact ⟨a, rfl, Except.ok.inj h⟩

namespace Tree

variable {t t' : Tree} {p n : NodeId} {o : LoadOptions} {i : Item} {content : Content}

/-- The tree after changes. -/
def changed (t : Tree) (changes : List Change) : Tree := changes.foldl Change.apply t

theorem changed_append (t : Tree) (changes changes' : List Change) :
    t.changed (changes ++ changes') = (t.changed changes).changed changes' :=
  List.foldl_append

theorem exists_changes_setAttributes {attributes : List Attribute}
    (h : t.setAttributes n attributes = .ok t') : ∃ changes, t.changed changes = t' := by
  induction attributes generalizing t with
  | nil => exact ⟨[], Except.ok.inj h⟩
  | cons a attributes ih =>
    obtain ⟨t₁, h₁, h⟩ := exists_of_bind_eq_ok h
    obtain ⟨changes, hc⟩ := ih h
    have happly : (Change.setAttribute n a.name a.value).apply t = t₁ := by
      rw [Change.apply, h₁]
      rfl
    refine ⟨.setAttribute n a.name a.value :: changes, ?_⟩
    rw [changed, List.foldl_cons, happly]
    exact hc

theorem exists_create (hi : i.content? = some content) :
    ∃ create : Change, ∀ t : Tree, create.apply t = (t.push content).2 := by
  cases i with
  | instruction => cases hi
  | doctype name => exact ⟨.createDoctype name, fun t => by obtain rfl := Option.some.inj hi; rfl⟩
  | text data => exact ⟨.createText data, fun t => by obtain rfl := Option.some.inj hi; rfl⟩
  | comment data => exact ⟨.createComment data, fun t => by obtain rfl := Option.some.inj hi; rfl⟩
  | element tag => exact ⟨.createElement tag, fun t => by obtain rfl := Option.some.inj hi; rfl⟩

theorem exists_changes_addNode (h : t.addNode o p i = .ok (n, t')) :
    ∃ changes, t.changed changes = t' := by
  rw [addNode] at h
  cases hi : i.content?.filter o.keeps with
  | none =>
    rw [hi] at h
    obtain ⟨-, rfl⟩ := Prod.mk.inj (Except.ok.inj h)
    exact ⟨[], rfl⟩
  | some content =>
    rw [hi] at h
    obtain ⟨⟨m, t₁⟩, h₁, h⟩ := exists_of_bind_eq_ok h
    obtain ⟨t₂, h₂, h⟩ := exists_of_bind_eq_ok h
    obtain ⟨-, rfl⟩ := Prod.mk.inj (Except.ok.inj h)
    obtain ⟨changes, hc⟩ := exists_changes_setAttributes h₂
    obtain ⟨create, hcreate⟩ := exists_create (Option.filter_eq_some_iff.mp hi).1
    have happend : (Change.insert p (.slot t.size) none).apply (create.apply t) = t₁ := by
      obtain ⟨t₃, hok, he⟩ := exists_of_map_eq_ok h₁
      obtain ⟨-, rfl⟩ := Prod.mk.inj he
      rw [hcreate, Change.apply]
      exact congrArg (fun r : Except TreeError Tree => r.toOption.getD (t.push content).2) hok
    refine ⟨create :: .insert p (.slot t.size) none :: changes, ?_⟩
    rw [changed, List.foldl_cons, List.foldl_cons, happend]
    exact hc

theorem exists_changes_addWaiting {waiting : List (NodeId × Item)}
    (h : t.addWaiting o waiting = .ok t') : ∃ changes, t.changed changes = t' := by
  induction t, waiting using addWaiting.induct with
  | case1 t =>
    rw [addWaiting] at h
    exact ⟨[], Except.ok.inj h⟩
  | case2 t p i waiting ih =>
    rw [addWaiting] at h
    obtain ⟨⟨n, t₁⟩, h₁, h⟩ := exists_of_bind_eq_ok h
    obtain ⟨changes₁, hc₁⟩ := exists_changes_addNode h₁
    obtain ⟨changes₂, hc₂⟩ := ih n t₁ h
    exact ⟨changes₁ ++ changes₂, by rw [changed_append, hc₁, hc₂]⟩

end Tree

namespace Document

variable {d start : Document} {o : LoadOptions} {items : List Item} {n : NodeId} {v : String}

theorem exists_changes_of_ofItems (h : ofItems o items = .ok start) :
    ∃ changes, Tree.after changes = start.tree := by
  obtain ⟨t, ht, rfl⟩ := exists_of_map_eq_ok h
  exact Tree.exists_changes_addWaiting ht

theorem wellLinked_changed (hstart : start = .empty ∨ ofItems o items = .ok start)
    (changes : List Change) : ∃ kids, (start.tree.changed changes).WellLinked kids := by
  obtain ⟨earlier, he⟩ : ∃ earlier, Tree.after earlier = start.tree := by
    rcases hstart with rfl | hstart
    · exact ⟨[], rfl⟩
    · exact exists_changes_of_ofItems hstart
  have hafter : Tree.after (earlier ++ changes) = start.tree.changed changes := by
    rw [← he]
    exact Tree.changed_append .empty earlier changes
  exact hafter ▸ Tree.wellLinked_after _

end Document

/-! ## Looking for an id -/

namespace Tree.WellLinked

variable {t : Tree} {kids : NodeId → List NodeId} {n : NodeId} (h : t.WellLinked kids)

include h

/-- **A node is connected just if it is reached from the document.** -/
theorem isConnected_iff : t.isConnected n = true ↔ ReflTransGen t.HasChild .root n := by
  rw [isConnected, h.isInclusiveAncestor_iff, and_iff_right_iff_imp]
  intro hn
  rcases reflTransGen_iff_eq_or_transGen.mp hn with rfl | hn
  · exact contains_ne_null h.contains_root
  · exact contains_ne_null (h.contains_of_below hn).2

end Tree.WellLinked

namespace Document

theorem elementById?_cases (d : Document) (v : String) :
    (∃ n, d.tree.indexedElement? v = some n ∧ (d.tree.isConnected n = true ∧
        d.tree.carriesId n v = true) ∧ d.elementById? v = some n) ∨
      d.elementById? v = d.tree.firstWithId? v := by
  unfold elementById?
  cases hn : d.tree.indexedElement? v with
  | none => exact .inr rfl
  | some n =>
    dsimp only
    split_ifs with hc
    · rw [Bool.and_eq_true] at hc
      exact .inl ⟨n, rfl, hc.symm, rfl⟩
    · exact .inr rfl

/-- **What is found for an id after any changes**: an attached element that has it, if any
does. -/
theorem elementById?_of_changed {o : LoadOptions} {items : List Item} {d start : Document}
    (hstart : start = .empty ∨ ofItems o items = .ok start) (changes : List Change)
    (hd : d.tree = start.tree.changed changes) (v : String) :
    (∀ n, d.tree.isConnected n = true ↔ ReflTransGen d.tree.HasChild .root n) ∧
    (∀ n, d.elementById? v = some n → d.tree.isElement n = true ∧ d.tree.isConnected n = true ∧
      d.tree.attribute? n "id" = some v) ∧
    (d.elementById? v = none → ∀ n, d.tree.isConnected n = true →
      d.tree.attribute? n "id" ≠ some v) ∧
    ((∀ n, d.tree.indexedElement? v = some n → d.tree.isConnected n = true →
        d.tree.attribute? n "id" ≠ some v) →
      ∀ n, d.elementById? v = some n ↔ d.tree.IsFirst .root (d.tree.carriesId · v) n) := by
  obtain ⟨kids, h⟩ := wellLinked_changed hstart changes
  rw [← hd] at h
  have hup := fun n => h.isConnected_iff (n := n)
  have hcarries : ∀ n, d.tree.carriesId n v = true ↔ d.tree.attribute? n "id" = some v := fun n =>
    decide_eq_true_iff
  have hfirst : ∀ n, d.tree.firstWithId? v = some n ↔
      d.tree.IsFirst .root (d.tree.carriesId · v) n := fun n =>
    h.find?_preorder_eq_some h.contains_root
  simp only [← hcarries]
  refine ⟨hup, fun n hn => ?_, fun hnone n hn hc => ?_, fun hstale n => ?_⟩
  · suffices hcn : d.tree.isConnected n = true ∧ d.tree.carriesId n v = true from
      ⟨Tree.isElement_of_carriesId hcn.2, hcn⟩
    rcases d.elementById?_cases v with ⟨m, -, hm, he⟩ | he
    · obtain rfl := Option.some.inj (he.symm.trans hn)
      exact hm
    · have hn := (hfirst n).mp (he.symm.trans hn)
      exact ⟨(hup n).mpr hn.at_or_below, hn.holds⟩
  · rcases d.elementById?_cases v with ⟨m, -, hm, he⟩ | he
    · cases he.symm.trans hnone
    · have hnot := List.find?_eq_none.mp (he.symm.trans hnone)
      exact hnot n (h.mem_preorder.mpr ⟨h.contains_root, (hup n).mp hn⟩) ((hcarries n).mpr hc)
  · rcases d.elementById?_cases v with ⟨m, hm, ⟨hconn, hcm⟩, -⟩ | he
    · exact absurd ((hcarries m).mp hcm) (hstale m hm hconn)
    · rw [he]
      exact hfirst n

theorem elementById?_of_changed_erased :
    ∃ start, ofItems {} [.element "div" [⟨"id", "x"⟩] [] [.element "p" [⟨"id", "x"⟩] [] []]] =
        .ok start ∧
      start.tree.indexedElement? "x" = some (.slot 1) ∧
      ({ start with tree := start.tree.changed [.eraseAttribute (.slot 1) "id"] } :
        Document).elementById? "x" = some (.slot 2) := by
  let items : List Item := [.element "div" [⟨"id", "x"⟩] [] [.element "p" [⟨"id", "x"⟩] [] []]]
  let changes : List Change := [.eraseAttribute (.slot 1) "id"]
  obtain ⟨t, hok, -⟩ := Tree.loading_addWaiting {} items
  have hstart : ofItems {} items = .ok (ofTree t) := ofItems_eq_ok hok
  have hread : ∀ {α : Type} (f : Document → α) (a : α), (ofItems {} items).map f = .ok a →
      f (ofTree t) = a := by
    intro α f a hf
    rw [hstart] at hf
    exact Except.ok.inj hf
  have hentry := hread (·.tree.indexedElement? "x") (some (.slot 1)) (by cbv)
  have hentry' := hread (fun d => (d.tree.changed changes).indexedElement? "x") (some (.slot 1))
    (by cbv)
  have herased := hread (fun d => (d.tree.changed changes).attribute? (.slot 1) "id") none (by cbv)
  have hsecond := hread (fun d => (d.tree.changed changes).firstWithId? "x") (some (.slot 2))
    (by cbv)
  obtain ⟨kids, h⟩ := wellLinked_changed (.inr hstart) changes
  let d : Document := { ofTree t with tree := (ofTree t).tree.changed changes }
  obtain ⟨-, -, -, hfirst⟩ := elementById?_of_changed (d := d) (.inr hstart) changes rfl "x"
  have hstale : ∀ n, d.tree.indexedElement? "x" = some n → d.tree.isConnected n = true →
      d.tree.attribute? n "id" ≠ some "x" := by
    intro n hn _ hid
    obtain rfl := Option.some.inj (hentry'.symm.trans hn)
    cases herased.symm.trans hid
  exact ⟨ofTree t, hstart, hentry,
    (hfirst hstale _).mpr ((h.find?_preorder_eq_some h.contains_root).mp hsecond)⟩

end Document

end MarkupQuery
