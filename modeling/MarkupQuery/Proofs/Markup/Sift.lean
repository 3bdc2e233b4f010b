import Mathlib.Data.List.Permutation
import Mathlib.Data.List.TakeWhile
import MarkupQuery.Proofs.Markup.Load
import MarkupQuery.Proofs.Tree.Sift

/-!
# Options of the loader

The options of the loader leave out nodes and do nothing else: the tree is the one that comes of the
default options, sifted.

* `LoadOptions.LeavesOut`: blank texts and comments, with **`LoadOptions.keeps_eq_false_iff`**;
* `LoadOptions.filter_keeps_default`: nothing is left out by default;
* `Sifts.addNode`, `Sifts.addNode_left`: one item in two trees that are loaded, without options and
  with them;
* **`Sifts.loads`**: all items; **`Sifts.parent`**: a node that is kept keeps its parent;
* **`Document.ofItems_sifts`**: every forest of items makes a document whose nodes come in document
  order, and is sifted as the options say.
-/

namespace MarkupQuery

open Relation

/-! ## What is left out -/

theorem trim_eq_nil_iff {cs : List Char} : trim cs = [] ↔ ∀ c ∈ cs, isBlank c = true := by
  rw [trim, List.reverse_eq_nil_iff, List.dropWhile_eq_nil_iff]
  constructor
  · intro h c hc
    rw [← List.takeWhile_append_dropWhile (p := isBlank) (l := cs), List.mem_append] at hc
    exact hc.elim List.mem_takeWhile_imp fun hc => h c (List.mem_reverse.mpr hc)
  · exact fun h c hc => h c ((List.dropWhile_sublist _).subset (List.mem_reverse.mp hc))

namespace LoadOptions

/-- The options leave out what consists of blanks, or is a comment. -/
def LeavesOut (o : LoadOptions) (content : Content) : Prop :=
  (o.dropBlankText = true ∧ ∃ data, content = .text data ∧ ∀ c ∈ data.toList, isBlank c = true) ∨
    (o.keepComments = false ∧ ∃ data, content = .comment data)

/-- **What is not kept is what the options leave out.** -/
theorem keeps_eq_false_iff {o : LoadOptions} {content : Content} :
    o.keeps content = false ↔ o.LeavesOut content := by
  cases content <;> simp [keeps, LeavesOut, trim_eq_nil_iff]

theorem filter_keeps_default (c : Option Content) : c.filter ({} : LoadOptions).keeps = c := by
  cases c with
  | none => rfl
  | some content => cases content <;> rfl

theorem keeps_element (o : LoadOptions) (e : Element) : o.keeps (.element e) = true := rfl

end LoadOptions

/-! ## Two trees that are loaded -/

namespace Tree

variable {t₀ t t₀' t' : Tree} {p q n : NodeId} {content : Content} {e : Element} {o : LoadOptions}
  {i : Item} {items : List Item}

theorem carriesId_congr (h : t'.content? q = t.content? n) (v : String) :
    t'.carriesId q v = t.carriesId n v := by
  rw [carriesId, attribute?, element?_eq_content?, h, ← element?_eq_content?, ← attribute?,
    carriesId]

theorem keeps_of_isElement (o : LoadOptions) (hn : t.isElement n = true) :
    t.keeps o.keeps n = true := by
  obtain ⟨e, he⟩ := Option.isSome_iff_exists.mp hn
  rw [element?_eq_content?, Option.bind_eq_some_iff] at he
  obtain ⟨content, hc, he⟩ := he
  cases content with
  | element e => rw [keeps, hc, Option.any_some, o.keeps_element]
  | _ => cases he

theorem Extends.renumber {keep : Content → Bool} (h : t.Extends p t') (hn : t.contains n = true) :
    t'.renumber keep n = t.renumber keep n := by
  obtain ⟨new, hnew⟩ := h.contents
  obtain ⟨i, hi, rfl⟩ := contains_iff.mp hn
  rw [← length_contents] at hi
  rw [Tree.renumber, Tree.renumber, hnew, List.take_append_of_le_length hi.le]

namespace Loading

theorem contains_of_isRecorded (h : t.Loading) (n : NodeId) (hn : t.IsRecorded n) :
    t.contains n = true :=
  contains_of_isElement (h.recorded n hn)

theorem keeps_of_takes (h : t.Loading) (o : LoadOptions) (hp : t.Takes p) :
    t.keeps o.keeps p = true := by
  rcases hp with rfl | hp
  · rw [keeps, h.linked.content_root]
    rfl
  · exact keeps_of_isElement o hp

end Loading

namespace Sifts

variable (hs : t₀.Sifts o.keeps t)

include hs

theorem takes (hp : t₀.Takes p) : t.Takes (t₀.renumber o.keeps p) := by
  refine hp.imp (fun e => by rw [e]; rfl) fun he => ?_
  rw [isElement_eq_content?, hs.content? (keeps_of_isElement o he), ← isElement_eq_content?, he]

theorem content?_append (ha₀ : t₀.Appends p content t₀') (ha : t.Appends q content t')
    (hn : t₀'.keeps o.keeps n = true) :
    t'.content? (t₀.renumber o.keeps n) = t₀'.content? n := by
  rcases ha₀.contains_iff.mp (contains_of_keeps hn) with rfl | hold
  · rw [hs.renumber_size, ha.content?, if_pos rfl, ha₀.content?, if_pos rfl]
  · have hn₀ := ha₀.keeps_of_contains hold ▸ hn
    rw [ha.content?, if_neg (ne_slot_size (hs.contains hn₀)), hs.content? hn₀, ha₀.content?,
      if_neg (ne_slot_size hold)]

theorem withAttributes (h₀' : t₀'.Loading) (h' : t'.Loading)
    (ha₀ : t₀.Appends p (.element e) t₀') (ha : t.Appends q (.element e) t')
    (hr : RecordsAlike (t₀.renumber o.keeps) t₀' t') (as : List Attribute) :
    RecordsAlike (t₀.renumber o.keeps) (t₀'.withAttributes (.slot t₀.size) as)
      (t'.withAttributes (.slot t.size) as) := by
  induction as generalizing e t₀' t' with
  | nil => exact hr
  | cons a as ih =>
    have hset₀ := ha₀.withAttribute h₀'.linked a.name a.value
    have hset := ha.withAttribute h'.linked a.name a.value
    refine ih (h₀'.withAttribute ha₀ a.name a.value) (h'.withAttribute ha a.name a.value) hset₀ hset
      ?_
    have hkept : ∀ {m}, t₀'.isElement m = true → t₀'.keeps o.keeps m = true := keeps_of_isElement o
    have hlast := ha₀.isElement_new
    rw [← hs.renumber_size]
    refine hr.withAttribute h₀'.linked h₀'.isConnected_of_isElement h'.linked
      h'.isConnected_of_isElement a.name a.value (fun m hm v => ?_) fun m hm e => ?_
    · rw [hs.renumber_size]
      refine carriesId_congr (hs.content?_append hset₀ hset ?_) v
      refine keeps_of_isElement o ?_
      rw [isElement_withAttribute]
      exact h₀'.recorded m hm
    · have hm' := h₀'.recorded m hm
      rw [← ha₀.renumber (contains_of_isElement hm'),
        ← ha₀.renumber (contains_of_isElement hlast)] at e
      exact renumber_inj (hkept hm') (hkept hlast) e

/-- **An item that is kept gets a node in both trees.** -/
theorem addNode (h₀ : t₀.Loading) (h : t.Loading) (hp : t₀.Takes p) (hi : i.content? = some content)
    (hk : o.keeps content = true) :
    ∃ t₀' t', t₀.addNode {} p i = .ok (.slot t₀.size, t₀') ∧
      t.addNode o (t₀.renumber o.keeps p) i = .ok (.slot t.size, t') ∧ t₀'.Loading ∧ t'.Loading ∧
      t₀.Appends p (content.withAttributes i.attributes) t₀' ∧ t₀'.Sifts o.keeps t' := by
  have hi₀ := (LoadOptions.filter_keeps_default i.content?).trans hi
  have hi' : i.content?.filter o.keeps = some content := by rw [hi, Option.filter_some, if_pos hk]
  have hkeep := h₀.keeps_of_takes o hp
  have happend : ∀ t₀₁ t₁ : Tree, t₀₁.indexedElement? = t₀.indexedElement? →
      t₀₁.owners = t₀.owners → t₁.indexedElement? = t.indexedElement? → t₁.owners = t.owners →
      RecordsAlike (t₀.renumber o.keeps) t₀₁ t₁ := by
    intro t₀₁ t₁ h₁ h₂ h₃ h₄
    rw [RecordsAlike, h₁, h₂, h₃, h₄]
    exact hs.records
  rcases Item.of_content? hi with ⟨tag, rfl⟩ | ⟨he, hnil, -⟩
  · obtain ⟨t₀₁, hok₀, h₀₁, ha₀, hindex₀, howners₀⟩ := h₀.append hp (Content.fresh_ofTag tag)
    obtain ⟨t₁, hok, h₁, ha, hindex, howners⟩ := h.append (hs.takes hp) (Content.fresh_ofTag tag)
    obtain ⟨hok₀', h₀', ha₀'⟩ := h₀₁.setAttributes ha₀ i.attributes
    obtain ⟨hok', h', ha'⟩ := h₁.setAttributes ha i.attributes
    have hr := hs.withAttributes h₀₁ h₁ ha₀ ha (happend _ _ hindex₀ howners₀ hindex howners)
      i.attributes
    exact ⟨_, _, addNode_eq_ok hi₀ hok₀ hok₀', addNode_eq_ok hi' hok hok', h₀', h', ha₀',
      hs.append h₀.linked h.linked hkeep (o.keeps_element _) ha₀' ha' hr
        h₀'.contains_of_isRecorded⟩
  · obtain ⟨t₀', hok₀, h₀', ha₀, hindex₀, howners₀⟩ :=
      h₀.append hp (Content.fresh_of_element?_eq_none he)
    obtain ⟨t', hok, h', ha, hindex, howners⟩ :=
      h.append (hs.takes hp) (Content.fresh_of_element?_eq_none he)
    have hset : ∀ (t₁ : Tree) n, t₁.setAttributes n i.attributes = .ok t₁ := fun t₁ n => by
      rw [hnil]
      rfl
    rw [hnil, Content.withAttributes_nil]
    exact ⟨t₀', t', addNode_eq_ok hi₀ hok₀ (hset _ _), addNode_eq_ok hi' hok (hset _ _), h₀', h',
      ha₀, hs.append h₀.linked h.linked hkeep hk ha₀ ha
        (happend _ _ hindex₀ howners₀ hindex howners) h₀'.contains_of_isRecorded⟩

theorem addNode_left (h₀ : t₀.Loading) (hp : t₀.Takes p) (hi : i.content? = some content)
    (hk : o.keeps content = false) :
    ∃ t₀', t₀.addNode {} p i = .ok (.slot t₀.size, t₀') ∧ t₀'.Loading ∧
      t₀.Appends p content t₀' ∧ t₀'.Sifts o.keeps t := by
  have hi₀ := (LoadOptions.filter_keeps_default i.content?).trans hi
  rcases Item.of_content? hi with ⟨tag, rfl⟩ | ⟨he, hnil, -⟩
  · cases hk
  · obtain ⟨t₀', hok, h₀', ha, hindex, howners⟩ :=
      h₀.append hp (Content.fresh_of_element?_eq_none he)
    exact ⟨t₀', addNode_eq_ok hi₀ hok (by rw [hnil]; rfl), h₀', ha,
      hs.drop h₀.linked hk ha hindex howners h₀.contains_of_isRecorded⟩

end Sifts

/-- **Items become nodes of both trees, if they are kept.** -/
theorem Sifts.loads (items : List Item) (hs : t₀.Sifts o.keeps t) (h₀ : t₀.Loading)
    (h : t.Loading) (hp : items ≠ [] → t₀.Takes p) :
    ∃ t₀' t', Loads {} p items t₀ t₀' ∧ Loads o (t₀.renumber o.keeps p) items t t' ∧
      t₀'.Loading ∧ t'.Loading ∧ t₀.Extends p t₀' ∧ t₀'.Sifts o.keeps t' := by
  induction items using Item.forest_induction generalizing t₀ t p with
  | nil => exact ⟨t₀, t, .nil _ _ _, .nil _ _ _, h₀, h, .refl t₀ p, hs⟩
  | cons i items ihInner ih =>
    have hp := hp (List.cons_ne_nil i items)
    have hpt := h₀.contains_of_takes hp
    cases hi : i.content? with
    | none =>
      have hskip : ∀ o : LoadOptions, i.content?.filter o.keeps = none := fun o => by rw [hi]; rfl
      obtain ⟨t₀', t', hl₀, hl, hrest⟩ := ih hs h₀ h fun _ => hp
      exact ⟨t₀', t', .skip (hskip _) hl₀, .skip (hskip _) hl, hrest⟩
    | some content =>
      have hi₀ := (LoadOptions.filter_keeps_default i.content?).trans hi
      cases hk : o.keeps content with
      -- an item that is left out holds no others, so that nothing else is lost with it
      | false =>
        have hi' : i.content?.filter o.keeps = none := by rw [hi, Option.filter_some, hk]; rfl
        obtain ⟨t₀₁, hadd₀, h₀₁, ha₀, hs₁⟩ := hs.addNode_left h₀ hp hi hk
        have hext₁ := (Extends.refl t₀₁ (.slot t₀.size)).nest h₀.linked hpt ha₀
        obtain ⟨t₀', t', hl₀, hl, h₀', h', hext, hs'⟩ :=
          ih hs₁ h₀₁ h fun _ => hp.imp_right hext₁.isElement
        rw [hext₁.renumber hpt] at hl
        have hinner : Loads {} (.slot t₀.size) i.inner t₀₁ t₀₁ := by
          rw [Item.inner_eq_nil hi']
          exact .nil _ _ _
        exact ⟨t₀', t', .node hadd₀ hinner hl₀, .skip hi' hl, h₀', h', hext₁.trans hext hpt, hs'⟩
      | true =>
        obtain ⟨t₀₁, t₁, hadd₀, hadd, h₀₁, h₁, ha₀, hs₁⟩ := hs.addNode h₀ h hp hi hk
        obtain ⟨t₀₂, t₂, hl₀₁, hl₁, h₀₂, h₂, hext₁, hs₂⟩ :=
          ihInner hs₁ h₀₁ h₁ (takes_of_inner hi₀ ha₀)
        rw [ha₀.renumber (ha₀.contains_iff.mpr (.inl rfl)), hs.renumber_size] at hl₁
        have hext₂ := hext₁.nest h₀.linked hpt ha₀
        obtain ⟨t₀', t', hl₀₂, hl₂, h₀', h', hext, hs'⟩ :=
          ih hs₂ h₀₂ h₂ fun _ => hp.imp_right hext₂.isElement
        rw [hext₂.renumber hpt] at hl₂
        exact ⟨t₀', t', .node hadd₀ hl₀₁ hl₀₂, .node hadd hl₁ hl₂, h₀', h', hext₂.trans hext hpt,
          hs'⟩

theorem sifts_empty (o : LoadOptions) : Tree.empty.Sifts o.keeps Tree.empty where
  contents := rfl
  children n _ := by rw [wellLinked_empty.children_eq, wellLinked_empty.children_eq]; rfl
  records v := by simp [indexedElement?, owners, empty]

/-- **A node that is kept keeps its parent.** -/
theorem Sifts.parent (hs : t₀.Sifts o.keeps t) (h₀ : t₀.Loading) (h : t.Loading)
    (hn : t₀.keeps o.keeps n = true) :
    t.parent (t₀.renumber o.keeps n) = t₀.renumber o.keeps (t₀.parent n) := by
  rcases ReflTransGen.cases_tail (h₀.attached n (contains_of_keeps hn)) with rfl | ⟨p, -, hpn⟩
  · rw [h₀.linked.parent_root]
    exact h.linked.parent_root
  · have hp := h₀.keeps_of_takes o (h₀.parents p n hpn)
    have hchild : t.HasChild (t₀.renumber o.keeps p) (t₀.renumber o.keeps n) := by
      rw [HasChild, hs.children p hp]
      exact List.mem_map_of_mem (List.mem_filter.mpr ⟨hpn, hn⟩)
    rw [(h.linked.hasChild_iff.mp hchild).1, (h₀.linked.hasChild_iff.mp hpn).1]

end Tree

namespace Document

/-- **Every forest of items is loaded**, and options leave out blank texts and comments, nothing
else. -/
theorem ofItems_sifts (o : LoadOptions) (items : List Item) :
    ∃ d d₀, ofItems o items = .ok d ∧ ofItems {} items = .ok d₀ ∧
      (∀ read text, read text = .ok items → ofText read o text = .ok d) ∧
      (∀ n, d.tree.contains n = true → d.tree.isConnected n = true) ∧
      d.tree.preorder .root = d.tree.ids ∧ d.tree.ParentsAreElements ∧
      (∀ content, o.keeps content = false ↔ o.LeavesOut content) ∧
      d₀.tree.Sifts o.keeps d.tree ∧
      (∀ m, d.tree.contains m = true ↔
        ∃ n, d₀.tree.keeps o.keeps n = true ∧ d₀.tree.renumber o.keeps n = m) ∧
      ∀ n, d₀.tree.keeps o.keeps n = true →
        d.tree.parent (d₀.tree.renumber o.keeps n) =
          d₀.tree.renumber o.keeps (d₀.tree.parent n) := by
  obtain ⟨t, hok, h, hpre⟩ := Tree.loading_addWaiting o items
  obtain ⟨t₀, t', hl₀, hl, h₀, -, -, hs⟩ := (Tree.sifts_empty o).loads items (p := .root)
    Tree.loading_empty Tree.loading_empty fun _ => .inl rfl
  obtain rfl : t = t' := Except.ok.inj (hok.symm.trans hl.addWaiting_eq)
  have hd : ofItems o items = .ok (ofTree t) := ofItems_eq_ok hok
  exact ⟨ofTree t, ofTree t₀, hd, ofItems_eq_ok hl₀.addWaiting_eq, fun _ _ => ofText_eq_ok hd,
    fun n => h.isConnected, hpre, h.parents, fun _ => LoadOptions.keeps_eq_false_iff, hs,
    fun _ => hs.contains_iff, fun n => hs.parent h₀ h⟩

end Document

theorem Item.read_paragraph : Item.read "<p id=\"x\"> <!--n-->a</p>" =
    .ok [.element "html" [] [] [.element "head" [] [] [], .element "body" [] [] [
      .element "p" [⟨"id", "x"⟩] [] [.text " ", .comment "n", .text "a"]]]] := by
  have hp : Token.read "<p id=\"x\"> <!--n-->a</p>".toList =
      some (.startTag "p" [⟨"id", "x"⟩] false, " <!--n-->a</p>".toList) := by decide +kernel
  have hblank : Token.read " <!--n-->a</p>".toList =
      some (.text " ", "<!--n-->a</p>".toList) := by decide
  have hcomment : Token.read "<!--n-->a</p>".toList =
      some (.comment "n", "a</p>".toList) := by decide
  have htext : Token.read "a</p>".toList = some (.text "a", "</p>".toList) := by decide
  have hend : Token.read "</p>".toList = some (.endTag "p", []) := by decide
  have hnesting : Nesting.empty.read? "<p id=\"x\"> <!--n-->a</p>".toList =
      some (⟨[], [.element "p" [⟨"id", "x"⟩] [] [.text " ", .comment "n", .text "a"]]⟩, []) := by
    rw [Nesting.read?_of_some hp rfl, if_neg (by decide),
      Nesting.read?_of_some hblank rfl, if_neg (by decide),
      Nesting.read?_of_some hcomment rfl, if_neg (by decide),
      Nesting.read?_of_some htext rfl, if_neg (by decide),
      Nesting.read?_of_some hend rfl, if_neg (by decide)]
    exact Nesting.read?_of_none rfl
  have hportions : portions "<p id=\"x\"> <!--n-->a</p>".toList =
      ["<p id=\"x\"> <!--n-->a</p>".toList] := by decide
  have hmark : dropMark "<p id=\"x\"> <!--n-->a</p>".toList =
      "<p id=\"x\"> <!--n-->a</p>".toList := by decide
  rw [Item.read, Item.ofText?, hportions, Nesting.readPortions?, List.nil_append, hmark, hnesting]
  rfl

/-- A blank text and a comment are left out, a text is kept. -/
theorem Document.ofItems_sifts_blank :
    ∃ d d₀, ofMarkup { dropBlankText := true, keepComments := false }
        "<p id=\"x\"> <!--n-->a</p>" = .ok d ∧
      ofMarkup {} "<p id=\"x\"> <!--n-->a</p>" = .ok d₀ ∧
      d₀.tree.contents = [.document, .element (.ofTag "html"), .element (.ofTag "head"),
        .element (.ofTag "body"), .element ⟨"p", (Attributes.empty.set "id" "x").2⟩, .text " ",
        .comment "n", .text "a"] ∧
      d.tree.contents = [.document, .element (.ofTag "html"), .element (.ofTag "head"),
        .element (.ofTag "body"), .element ⟨"p", (Attributes.empty.set "id" "x").2⟩, .text "a"] ∧
      d.tree.parent (.slot 5) = .slot 4 := by
  let o : LoadOptions := { dropBlankText := true, keepComments := false }
  let items : List Item := [.element "html" [] [] [.element "head" [] [] [],
    .element "body" [] [] [.element "p" [⟨"id", "x"⟩] [] [.text " ", .comment "n", .text "a"]]]]
  obtain ⟨d, d₀, hd, hd₀, hread, -, -, -, -, hs, -, hparent⟩ := ofItems_sifts o items
  obtain ⟨d₀', -, hd₀', -, hread₀, -⟩ := ofItems_sifts {} items
  obtain rfl : d₀ = d₀' := Except.ok.inj (hd₀.symm.trans hd₀')
  have hcontents₀ : d₀.tree.contents = [.document, .element (.ofTag "html"),
      .element (.ofTag "head"), .element (.ofTag "body"),
      .element ⟨"p", (Attributes.empty.set "id" "x").2⟩, .text " ", .comment "n", .text "a"] :=
    apply_of_ofItems hd₀ (f := (·.tree.contents)) (by cbv)
  have hparent₀ : d₀.tree.parent (.slot 7) = .slot 4 :=
    apply_of_ofItems hd₀ (f := (·.tree.parent (.slot 7))) (by cbv)
  have hkept : d₀.tree.keeps o.keeps (.slot 7) = true := by
    rw [Tree.keeps, Tree.content?_slot, hcontents₀]
    decide
  have hnew : d₀.tree.renumber o.keeps (.slot 7) = .slot 5 ∧
      d₀.tree.renumber o.keeps (.slot 4) = .slot 4 := by
    rw [Tree.renumber, Tree.renumber, hcontents₀]
    exact ⟨rfl, rfl⟩
  have hslot := hparent _ hkept
  rw [hparent₀, hnew.1, hnew.2] at hslot
  refine ⟨d, d₀, hread _ _ Item.read_paragraph, hread₀ _ _ Item.read_paragraph, hcontents₀, ?_,
    hslot⟩
  rw [hs.contents, hcontents₀]
  rfl

end MarkupQuery
