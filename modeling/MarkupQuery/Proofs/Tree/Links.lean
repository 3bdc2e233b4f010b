import Mathlib.Data.List.Nodup
import Mathlib.Logic.Function.Basic
import Mathlib.Logic.Relation
import Mathlib.Order.WellFounded
import Mathlib.Tactic.SplitIfs
import MarkupQuery.Tree.Edit

/-!
# Links as a forest

The five links of all nodes are five functions on node ids (`Links`). They make a *forest* if they
spell, for each node, one list of children.

* `Links`, `Links.modify`, `Links.link`, `Links.cut`, `Links.graft`: changes of links as changes of
  functions;
* `Links.Run`: a list of nodes chained by its sibling links, with `Links.run_append`;
* `Links.Forest`: the links agree with lists of children, and no node lies above itself;
* **`Links.Forest.cut`**: taking a node out takes it out of one list;
* **`Links.Forest.graft`**: putting a node in puts it into one list.
-/

namespace MarkupQuery

open Function

/-- The links of all nodes. -/
@[ext]
structure Links where
  parent : NodeId → NodeId
  firstChild : NodeId → NodeId
  lastChild : NodeId → NodeId
  prevSibling : NodeId → NodeId
  nextSibling : NodeId → NodeId

namespace Links

variable {L L' : Links} {p c : NodeId}

/-! ## Changes of links -/

/-- A node with the links of `n`. -/
def nodeAt (L : Links) (n : NodeId) : Node where
  content := .document
  parent := L.parent n
  firstChild := L.firstChild n
  lastChild := L.lastChild n
  prevSibling := L.prevSibling n
  nextSibling := L.nextSibling n

/-- The links after one node has been changed. -/
def modify (L : Links) (n : NodeId) (f : Node → Node) : Links where
  parent := update L.parent n (f (L.nodeAt n)).parent
  firstChild := update L.firstChild n (f (L.nodeAt n)).firstChild
  lastChild := update L.lastChild n (f (L.nodeAt n)).lastChild
  prevSibling := update L.prevSibling n (f (L.nodeAt n)).prevSibling
  nextSibling := update L.nextSibling n (f (L.nodeAt n)).nextSibling

/-- The links by which `next` comes after `prev` among the children of `parent`. -/
def link (L : Links) (parent prev next : NodeId) : Links where
  parent := L.parent
  firstChild := if prev = .null then update L.firstChild parent next else L.firstChild
  lastChild := if next = .null then update L.lastChild parent prev else L.lastChild
  prevSibling := if next = .null then L.prevSibling else update L.prevSibling next prev
  nextSibling := if prev = .null then L.nextSibling else update L.nextSibling prev next

/-- The links with the child `c` taken out of `parent`. -/
def cut (L : Links) (parent c : NodeId) : Links :=
  let L' := L.link parent (L.prevSibling c) (L.nextSibling c)
  { L' with
    parent := update L'.parent c .null
    prevSibling := update L'.prevSibling c .null
    nextSibling := update L'.nextSibling c .null }

/-- The links with `c` put between two neighbours among the children of `parent`. -/
def graft (L : Links) (parent c prev next : NodeId) : Links :=
  (({ L with parent := update L.parent c parent } : Links).link parent prev c).link parent c next

theorem prevSibling_link (a b x : NodeId) :
    (L.link p a b).prevSibling x = if x = b ∧ x ≠ .null then a else L.prevSibling x := by
  simp only [link]
  split_ifs with hb h h
  · exact absurd (h.1.trans hb) h.2
  · rfl
  · rw [h.1, update_self]
  · exact update_of_ne (fun e => h ⟨e, fun e' => hb (e.symm.trans e')⟩) _ _

theorem nextSibling_link (a b x : NodeId) :
    (L.link p a b).nextSibling x = if x = a ∧ x ≠ .null then b else L.nextSibling x := by
  simp only [link]
  split_ifs with ha h h
  · exact absurd (h.1.trans ha) h.2
  · rfl
  · rw [h.1, update_self]
  · exact update_of_ne (fun e => h ⟨e, fun e' => ha (e.symm.trans e')⟩) _ _

theorem prevSibling_cut {x : NodeId} (hx : x ≠ c) : (L.cut p c).prevSibling x =
    if x = L.nextSibling c ∧ x ≠ .null then L.prevSibling c else L.prevSibling x :=
  (update_of_ne hx _ _).trans (prevSibling_link _ _ _)

theorem nextSibling_cut {x : NodeId} (hx : x ≠ c) : (L.cut p c).nextSibling x =
    if x = L.prevSibling c ∧ x ≠ .null then L.nextSibling c else L.nextSibling x :=
  (update_of_ne hx _ _).trans (nextSibling_link _ _ _)

theorem prevSibling_graft (hc : c ≠ .null) (a b x : NodeId) : (L.graft p c a b).prevSibling x =
    if x = b ∧ x ≠ .null then c else if x = c then a else L.prevSibling x := by
  rw [graft, prevSibling_link, prevSibling_link]
  exact if_congr Iff.rfl rfl (if_congr (and_iff_left_of_imp fun e => e ▸ hc) rfl rfl)

theorem nextSibling_graft (hc : c ≠ .null) (a b x : NodeId) : (L.graft p c a b).nextSibling x =
    if x = c then b else if x = a ∧ x ≠ .null then c else L.nextSibling x := by
  rw [graft, nextSibling_link, nextSibling_link]
  exact if_congr (and_iff_left_of_imp fun e => e ▸ hc) rfl rfl

/-! ## Runs of siblings -/

/-- The list is chained by its sibling links, with the given nodes before and after it. -/
def Run (L : Links) : NodeId → List NodeId → NodeId → Prop
  | _, [], _ => True
  | before, c :: cs, after =>
    L.prevSibling c = before ∧ L.nextSibling c = cs.headD after ∧ L.Run c cs after

theorem headD_append (l₁ l₂ : List NodeId) (a : NodeId) :
    (l₁ ++ l₂).headD a = l₁.headD (l₂.headD a) := by
  cases l₁ <;> rfl

theorem getLastD_append (l₁ l₂ : List NodeId) (a : NodeId) :
    (l₁ ++ l₂).getLastD a = l₂.getLastD (l₁.getLastD a) := by
  induction l₁ generalizing a with
  | nil => rfl
  | cons x l₁ ih => rw [List.cons_append, List.getLastD_cons, List.getLastD_cons, ih]

theorem run_append {before after : NodeId} {l₁ l₂ : List NodeId} :
    L.Run before (l₁ ++ l₂) after ↔
      L.Run before l₁ (l₂.headD after) ∧ L.Run (l₁.getLastD before) l₂ after := by
  induction l₁ generalizing before with
  | nil => simp [Run]
  | cons c l₁ ih =>
    rw [List.cons_append, Run, Run, ih, headD_append, List.getLastD_cons, and_assoc, and_assoc]

theorem Run.congr {before after : NodeId} {l : List NodeId} (h : L.Run before l after)
    (hp : ∀ c ∈ l, L'.prevSibling c = L.prevSibling c)
    (hn : ∀ c ∈ l, L'.nextSibling c = L.nextSibling c) : L'.Run before l after := by
  induction l generalizing before with
  | nil => trivial
  | cons c l ih =>
    obtain ⟨h₁, h₂, h₃⟩ := h
    refine ⟨?_, ?_, ih h₃ ?_ ?_⟩
    · rw [hp c List.mem_cons_self, h₁]
    · rw [hn c List.mem_cons_self, h₂]
    · exact fun d hd => hp d (List.mem_cons_of_mem _ hd)
    · exact fun d hd => hn d (List.mem_cons_of_mem _ hd)

theorem Run.set_after {before after after' : NodeId} {l : List NodeId}
    (h : L.Run before l after) (hl : l.Nodup)
    (hp : ∀ c ∈ l, L'.prevSibling c = L.prevSibling c)
    (hn : ∀ c ∈ l, L'.nextSibling c = if c = l.getLastD .null then after' else L.nextSibling c) :
    L'.Run before l after' := by
  rcases List.eq_nil_or_concat' l with rfl | ⟨k, x, rfl⟩
  · trivial
  rw [getLastD_append] at hn
  obtain ⟨hk, hx, -, -⟩ := run_append.mp h
  have hxk : ∀ c ∈ k, c ≠ x := fun c hc e =>
    (List.nodup_append.mp hl).2.2 c hc x (List.mem_singleton_self x) e
  refine run_append.mpr ⟨?_, ?_, ?_, trivial⟩
  · refine hk.congr (fun c hc => hp c (List.mem_append_left _ hc)) fun c hc => ?_
    rw [hn c (List.mem_append_left _ hc)]
    exact if_neg (hxk c hc)
  · rw [hp x (by simp), hx]
  · rw [hn x (by simp)]
    exact if_pos rfl

theorem Run.set_before {before before' after : NodeId} {l : List NodeId}
    (h : L.Run before l after) (hl : l.Nodup)
    (hn : ∀ c ∈ l, L'.nextSibling c = L.nextSibling c)
    (hp : ∀ c ∈ l, L'.prevSibling c = if c = l.headD .null then before' else L.prevSibling c) :
    L'.Run before' l after := by
  cases l with
  | nil => trivial
  | cons x k =>
    obtain ⟨-, h₂, h₃⟩ := h
    refine ⟨?_, ?_, h₃.congr ?_ ?_⟩
    · rw [hp x List.mem_cons_self]
      exact if_pos rfl
    · rw [hn x List.mem_cons_self, h₂]
    · intro c hc
      rw [hp c (List.mem_cons_of_mem _ hc)]
      exact if_neg fun e : c = x => (List.nodup_cons.mp hl).1 (e ▸ hc)
    · exact fun c hc => hn c (List.mem_cons_of_mem _ hc)

theorem getLastD_mem {l : List NodeId} (h : l ≠ []) (a : NodeId) : l.getLastD a ∈ l := by
  rw [List.getLastD_eq_getLast?, List.getLast?_eq_some_getLast h]
  exact List.getLast_mem h

theorem getLastD_mem_of_ne {l : List NodeId} (h : l.getLastD .null ≠ .null) :
    l.getLastD .null ∈ l :=
  getLastD_mem (fun e => h (by rw [e]; rfl)) _

theorem getLastD_eq_null_iff {l : List NodeId} (h : .null ∉ l) :
    l.getLastD .null = .null ↔ l = [] := by
  refine ⟨fun e => by_contra fun hl => h ?_, fun e => by rw [e]; rfl⟩
  have := getLastD_mem hl .null
  rwa [e] at this

theorem not_getLastD_of_not_mem {l : List NodeId} {x : NodeId} (h : x ∉ l) :
    ¬ (x = l.getLastD .null ∧ x ≠ .null) := by
  rintro ⟨rfl, hx⟩
  exact h (getLastD_mem_of_ne hx)

theorem headD_mem {l : List NodeId} (h : l ≠ []) (a : NodeId) : l.headD a ∈ l := by
  cases l with
  | nil => exact absurd rfl h
  | cons x l => exact List.mem_cons_self

theorem headD_mem_of_ne {l : List NodeId} (h : l.headD .null ≠ .null) : l.headD .null ∈ l :=
  headD_mem (fun e => h (by rw [e]; rfl)) _

theorem headD_eq_null_iff {l : List NodeId} (h : .null ∉ l) :
    l.headD .null = .null ↔ l = [] := by
  refine ⟨fun e => by_contra fun hl => h ?_, fun e => by rw [e]; rfl⟩
  have := headD_mem hl .null
  rwa [e] at this

theorem not_headD_of_not_mem {l : List NodeId} {x : NodeId} (h : x ∉ l) :
    ¬ (x = l.headD .null ∧ x ≠ .null) := by
  rintro ⟨rfl, hx⟩
  exact h (headD_mem_of_ne hx)

/-! ## Forests -/

/-- The node `p` is the parent of `c`. -/
def IsParent (L : Links) (p c : NodeId) : Prop := L.parent c = p ∧ p ≠ .null

/-- The links spell a list of children for each node. -/
structure Forest (L : Links) (kids : NodeId → List NodeId) : Prop where
  parent_null : L.parent .null = .null
  mem_iff : ∀ {p c}, c ∈ kids p ↔ L.IsParent p c
  nodup : ∀ p, (kids p).Nodup
  firstChild : ∀ p, L.firstChild p = (kids p).headD .null
  lastChild : ∀ p, L.lastChild p = (kids p).getLastD .null
  run : ∀ p, L.Run .null (kids p) .null
  /-- A node without parent has no siblings. -/
  orphan : ∀ {c}, L.parent c = .null → L.prevSibling c = .null ∧ L.nextSibling c = .null
  /-- Every way up ends. -/
  founded : WellFounded L.IsParent

namespace Forest

variable {kids : NodeId → List NodeId} (h : L.Forest kids)

include h

theorem ne_null (hc : c ∈ kids p) : c ≠ .null := by
  rintro rfl
  have := h.mem_iff.mp hc
  exact this.2 (this.1.symm.trans h.parent_null)

theorem null_not_mem : .null ∉ kids p := fun hc => h.ne_null hc rfl

theorem eq_of_mem {q : NodeId} (hp : c ∈ kids p) (hq : c ∈ kids q) : q = p :=
  (h.mem_iff.mp hq).1.symm.trans (h.mem_iff.mp hp).1

theorem exists_sides (hp : L.parent c ≠ .null) : ∃ l₁ l₂, kids (L.parent c) = l₁ ++ c :: l₂ :=
  List.append_of_mem (h.mem_iff.mpr ⟨rfl, hp⟩)

theorem neighbours {l₁ l₂ : List NodeId} (hk : kids p = l₁ ++ c :: l₂) :
    L.prevSibling c = l₁.getLastD .null ∧ L.nextSibling c = l₂.headD .null := by
  have hr := h.run p
  rw [hk] at hr
  obtain ⟨-, h₁, h₂, -⟩ := run_append.mp hr
  exact ⟨h₁, h₂⟩

theorem not_mem_sides {l₁ l₂ : List NodeId} (hk : kids p = l₁ ++ c :: l₂) : c ∉ l₁ ∧ c ∉ l₂ := by
  obtain ⟨-, hnd, hdis⟩ := List.nodup_append.mp (hk ▸ h.nodup p)
  exact ⟨fun hc => hdis c hc c List.mem_cons_self rfl, (List.nodup_cons.mp hnd).1⟩

theorem parts {l₁ l₂ : List NodeId} (hk : kids p = l₁ ++ l₂) :
    (l₁.Nodup ∧ l₂.Nodup ∧ ∀ x ∈ l₁, x ∉ l₂) ∧ .null ∉ l₁ ∧ .null ∉ l₂ := by
  have hnd := h.nodup p
  have hnull := h.null_not_mem (p := p)
  rw [hk] at hnd hnull
  obtain ⟨hnd₁, hnd₂, hdis⟩ := List.nodup_append.mp hnd
  exact ⟨⟨hnd₁, hnd₂, fun x h₁ h₂ => hdis x h₁ x h₂ rfl⟩, not_or.mp (mt List.mem_append.mpr hnull)⟩

theorem nextSibling_eq_iff {d : NodeId} (hd : d ≠ .null) :
    L.nextSibling c = d ↔ ∃ p l₁ l₂, kids p = l₁ ++ c :: d :: l₂ := by
  constructor
  · intro hn
    by_cases hp : L.parent c = .null
    · exact absurd (hn.symm.trans (h.orphan hp).2) hd
    · obtain ⟨l₁, l₂, hk⟩ := h.exists_sides hp
      have hl := (h.neighbours hk).2
      cases l₂ with
      | nil => exact absurd (hn.symm.trans hl) hd
      | cons x l₂ =>
        obtain rfl : d = x := hn.symm.trans hl
        exact ⟨_, l₁, l₂, hk⟩
  · rintro ⟨p, l₁, l₂, hk⟩
    exact (h.neighbours hk).2

theorem prevSibling_eq_iff {d : NodeId} (hd : d ≠ .null) :
    L.prevSibling c = d ↔ ∃ p l₁ l₂, kids p = l₁ ++ d :: c :: l₂ := by
  constructor
  · intro hn
    by_cases hp : L.parent c = .null
    · exact absurd (hn.symm.trans (h.orphan hp).1) hd
    · obtain ⟨l₁, l₂, hk⟩ := h.exists_sides hp
      have hl := (h.neighbours hk).1
      rcases List.eq_nil_or_concat' l₁ with rfl | ⟨l₁, x, rfl⟩
      · exact absurd (hn.symm.trans hl) hd
      · obtain rfl : d = x := by
          rw [hn, getLastD_append] at hl
          exact hl
        exact ⟨_, l₁, l₂, hk.trans (List.append_cons _ _ _).symm⟩
  · rintro ⟨p, l₁, l₂, hk⟩
    rw [(h.neighbours (hk.trans (List.append_cons _ _ _))).1, getLastD_append]
    rfl

theorem replace {l : List NodeId} (hnull : L'.parent .null = .null)
    (hmem : ∀ {q x}, x ∈ update kids p l q ↔ L'.IsParent q x) (hl : l.Nodup)
    (hfirst : L'.firstChild = update L.firstChild p (l.headD .null))
    (hlast : L'.lastChild = update L.lastChild p (l.getLastD .null))
    (hrun : L'.Run .null l .null)
    (hprev : ∀ x, x ∉ kids p → x ∉ l → L'.prevSibling x = L.prevSibling x)
    (hnext : ∀ x, x ∉ kids p → x ∉ l → L'.nextSibling x = L.nextSibling x)
    (hout : ∀ x ∈ kids p, x ∉ l → L'.prevSibling x = .null ∧ L'.nextSibling x = .null)
    (hfounded : WellFounded L'.IsParent) :
    L'.Forest (update kids p l) := by
  -- the links of the other children are not touched, since a node is a child once
  have hother : ∀ {q}, q ≠ p → ∀ x ∈ kids q, x ∉ kids p ∧ x ∉ l := by
    intro q hq x hx
    refine ⟨fun hxp => hq (h.eq_of_mem hxp hx), fun hxl => hq ?_⟩
    have h₁ : x ∈ update kids p l q := by rwa [update_of_ne hq]
    have h₂ : x ∈ update kids p l p := by rwa [update_self]
    exact (hmem.mp h₁).1.symm.trans (hmem.mp h₂).1
  refine ⟨hnull, hmem, ?_, ?_, ?_, ?_, ?_, hfounded⟩
  · intro q
    by_cases hq : q = p
    · rw [hq, update_self]
      exact hl
    · rw [update_of_ne hq]
      exact h.nodup q
  · intro q
    rw [hfirst]
    by_cases hq : q = p
    · rw [hq, update_self, update_self]
    · rw [update_of_ne hq, update_of_ne hq, h.firstChild]
  · intro q
    rw [hlast]
    by_cases hq : q = p
    · rw [hq, update_self, update_self]
    · rw [update_of_ne hq, update_of_ne hq, h.lastChild]
  · intro q
    by_cases hq : q = p
    · rw [hq, update_self]
      exact hrun
    · rw [update_of_ne hq]
      exact (h.run q).congr (fun x hx => hprev x (hother hq x hx).1 (hother hq x hx).2)
        fun x hx => hnext x (hother hq x hx).1 (hother hq x hx).2
  · intro x hx
    have hxl : x ∉ l := fun hm => by
      have hm' : x ∈ update kids p l p := by rwa [update_self]
      exact (hmem.mp hm').2 ((hmem.mp hm').1.symm.trans hx)
    -- a node without parent has left the list just now, or had no parent before
    by_cases hxp : x ∈ kids p
    · exact hout x hxp hxl
    · rw [hprev x hxp hxl, hnext x hxp hxl]
      refine h.orphan (by_contra fun hne => ?_)
      have hq : L.parent x ≠ p := fun e => hxp (h.mem_iff.mpr ⟨e, e ▸ hne⟩)
      have hm : x ∈ update kids p l (L.parent x) := by
        rw [update_of_ne hq]
        exact h.mem_iff.mpr ⟨rfl, hne⟩
      exact hne ((hmem.mp hm).1.symm.trans hx)

theorem mem_update_iff {l : List NodeId} {r q x : NodeId} (hL : L'.parent = update L.parent c r)
    (hl : ∀ x, x ≠ c → (x ∈ l ↔ x ∈ kids p)) (hc : c ∈ update kids p l q ↔ r = q ∧ q ≠ .null) :
    x ∈ update kids p l q ↔ L'.IsParent q x := by
  rw [IsParent, hL]
  by_cases hx : x = c
  · rw [hx, update_self]
    exact hc
  · rw [update_of_ne hx, show (L.parent x = q ∧ q ≠ .null) = L.IsParent q x from rfl, ← h.mem_iff]
    by_cases hq : q = p
    · rw [hq, update_self, hl x hx]
    · rw [update_of_ne hq]

theorem firstChild_replace {l₁ l : List NodeId} (hk : kids p = l₁ ++ l) (l₂ : List NodeId) :
    (if l₁ = [] then update L.firstChild p (l₂.headD .null) else L.firstChild) =
      update L.firstChild p ((l₁ ++ l₂).headD .null) := by
  split_ifs with h₁
  · rw [h₁, List.nil_append]
  · refine (update_eq_self_iff.mpr ?_).symm
    rw [h.firstChild, hk]
    cases l₁ with
    | nil => exact absurd rfl h₁
    | cons x l₁ => rfl

theorem lastChild_replace {l l₂ : List NodeId} (hk : kids p = l ++ l₂) (l₁ : List NodeId) :
    (if l₂ = [] then update L.lastChild p (l₁.getLastD .null) else L.lastChild) =
      update L.lastChild p ((l₁ ++ l₂).getLastD .null) := by
  split_ifs with h₂
  · rw [h₂, List.append_nil]
  · refine (update_eq_self_iff.mpr ?_).symm
    rw [h.lastChild, hk]
    cases l₂ with
    | nil => exact absurd rfl h₂
    | cons x l₂ => simp only [getLastD_append, List.getLastD_cons]

/-! ## Taking out -/

theorem siblings_cut {l₁ l₂ : List NodeId} (hk : kids p = l₁ ++ c :: l₂) {x : NodeId}
    (hx : x ≠ c) :
    ((L.cut p c).prevSibling x =
      if x = l₂.headD .null ∧ x ≠ .null then l₁.getLastD .null else L.prevSibling x) ∧
    (L.cut p c).nextSibling x =
      if x = l₁.getLastD .null ∧ x ≠ .null then l₂.headD .null else L.nextSibling x := by
  rw [prevSibling_cut hx, nextSibling_cut hx, (h.neighbours hk).1, (h.neighbours hk).2]
  exact ⟨rfl, rfl⟩

theorem run_cut {l₁ l₂ : List NodeId} (hk : kids p = l₁ ++ c :: l₂) :
    (L.cut p c).Run .null (l₁ ++ l₂) .null := by
  obtain ⟨⟨hnd₁, hnd₂, hdis⟩, hn₁, hn₂⟩ := h.parts hk
  obtain ⟨hc₁, hc₂⟩ := h.not_mem_sides hk
  have hdis' : ∀ x ∈ l₁, x ∉ l₂ := fun x h₁ => List.not_mem_of_not_mem_cons (hdis x h₁)
  have hrun := h.run p
  rw [hk] at hrun
  obtain ⟨h₁, -, -, h₂⟩ := run_append.mp hrun
  refine run_append.mpr
    ⟨h₁.set_after hnd₁ ?_ ?_, h₂.set_before (List.nodup_cons.mp hnd₂).2 ?_ ?_⟩
  · intro x hx
    rw [(h.siblings_cut hk fun e : x = c => hc₁ (e ▸ hx)).1,
      if_neg (not_headD_of_not_mem (hdis' x hx))]
  · intro x hx
    rw [(h.siblings_cut hk fun e : x = c => hc₁ (e ▸ hx)).2]
    exact if_congr (and_iff_left fun e => hn₁ (e ▸ hx)) rfl rfl
  · intro x hx
    rw [(h.siblings_cut hk fun e : x = c => hc₂ (e ▸ hx)).2,
      if_neg (not_getLastD_of_not_mem fun h₁ => hdis' x h₁ hx)]
  · intro x hx
    rw [(h.siblings_cut hk fun e : x = c => hc₂ (e ▸ hx)).1]
    exact if_congr (and_iff_left fun e => hn₂ (e ▸ List.mem_cons_of_mem _ hx)) rfl rfl

theorem founded_cut : WellFounded (L.cut p c).IsParent := by
  refine Subrelation.wf (r := L.IsParent) (fun {q x} hm => ⟨?_, hm.2⟩) h.founded
  obtain ⟨hm, hq⟩ := hm
  change update L.parent c .null x = q at hm
  by_cases hx : x = c
  · rw [hx, update_self] at hm
    exact absurd hm.symm hq
  · rwa [update_of_ne hx] at hm

/-- **Taking a node out takes it out of one list.** -/
theorem cut {l₁ l₂ : List NodeId} (hk : kids p = l₁ ++ c :: l₂) :
    (L.cut p c).Forest (update kids p (l₁ ++ l₂)) := by
  obtain ⟨hprev, hnext⟩ := h.neighbours hk
  obtain ⟨-, hn₁, hn₂⟩ := h.parts hk
  obtain ⟨hc₁, hc₂⟩ := h.not_mem_sides hk
  have hc : c ∈ kids p := by rw [hk]; simp
  refine h.replace ?_ ?_ ?_ ?_ ?_ (h.run_cut hk) ?_ ?_ ?_ h.founded_cut
  · exact (update_of_ne (h.ne_null hc).symm _ _).trans h.parent_null
  · intro q x
    refine h.mem_update_iff rfl (fun x hx => by rw [hk]; simp [hx]) ⟨fun hm => ?_, fun hm =>
      absurd hm.1.symm hm.2⟩
    by_cases hq : q = p
    · rw [hq, update_self] at hm
      exact absurd (List.mem_append.mp hm) (by simp [hc₁, hc₂])
    · rw [update_of_ne hq] at hm
      exact absurd (h.eq_of_mem hc hm) hq
  · exact (hk ▸ h.nodup p).sublist ((List.sublist_cons_self c l₂).append_left l₁)
  · simp only [Links.cut, link, hprev, hnext, getLastD_eq_null_iff hn₁]
    exact h.firstChild_replace hk l₂
  · simp only [Links.cut, link, hprev, hnext,
      headD_eq_null_iff (List.not_mem_of_not_mem_cons hn₂)]
    exact h.lastChild_replace (hk.trans (List.append_cons _ _ _)) l₁
  · intro x hx hx'
    rw [(h.siblings_cut hk fun e : x = c => hx (e ▸ hc)).1,
      if_neg (not_headD_of_not_mem fun hm => hx' (by simp [hm]))]
  · intro x hx hx'
    rw [(h.siblings_cut hk fun e : x = c => hx (e ▸ hc)).2,
      if_neg (not_getLastD_of_not_mem fun hm => hx' (by simp [hm]))]
  · intro x hx hx'
    have e : x = c := by
      rw [hk] at hx
      simp only [List.mem_append, List.mem_cons, not_or] at hx hx'
      tauto
    rw [e]
    exact ⟨update_self _ _ _, update_self _ _ _⟩

/-! ## Putting in -/

omit h in
theorem founded_update (h : WellFounded L.IsParent) (hL : L'.parent = update L.parent c p)
    (hpc : ¬ Relation.ReflTransGen L.IsParent c p) : WellFounded L'.IsParent := by
  have hstep : ∀ {q x}, x ≠ c → L'.IsParent q x → L.IsParent q x := by
    rintro q x hx ⟨hm, hq⟩
    rw [hL, update_of_ne hx] at hm
    exact ⟨hm, hq⟩
  -- the way up from a node that is not below `c` is as it was
  have hoff : ∀ x, ¬ Relation.ReflTransGen L.IsParent c x → Acc L'.IsParent x := by
    intro x
    induction x using h.induction with
    | h x ih =>
      intro hx
      refine Acc.intro _ fun q hq => ?_
      have hq' := hstep (fun e => hx (e ▸ .refl)) hq
      exact ih q hq' fun hcq => hx (hcq.tail hq')
  have hc : Acc L'.IsParent c := by
    refine Acc.intro _ fun q hq => ?_
    have e : p = q := by
      rw [← hq.1, hL, update_self]
    exact e ▸ hoff p hpc
  refine ⟨fun x => ?_⟩
  induction x using h.induction with
  | h x ih =>
    by_cases hx : x = c
    · exact hx ▸ hc
    · exact Acc.intro _ fun q hq => ih q (hstep hx hq)

theorem run_graft {l₁ l₂ : List NodeId} (hk : kids p = l₁ ++ l₂) (hcn : c ≠ .null)
    (hc : c ∉ kids p) :
    (L.graft p c (l₁.getLastD .null) (l₂.headD .null)).Run .null (l₁ ++ c :: l₂) .null := by
  obtain ⟨⟨hnd₁, hnd₂, hdis⟩, hn₁, hn₂⟩ := h.parts hk
  obtain ⟨hc₁, hc₂⟩ := not_or.mp (mt List.mem_append.mpr (hk ▸ hc))
  have hrun := h.run p
  rw [hk] at hrun
  obtain ⟨h₁, h₂⟩ := run_append.mp hrun
  refine run_append.mpr ⟨h₁.set_after hnd₁ ?_ ?_, ?_, ?_, h₂.set_before hnd₂ ?_ ?_⟩
  · intro x hx
    rw [prevSibling_graft hcn, if_neg (not_headD_of_not_mem (hdis x hx)),
      if_neg fun e : x = c => hc₁ (e ▸ hx)]
  · intro x hx
    rw [nextSibling_graft hcn, if_neg fun e : x = c => hc₁ (e ▸ hx)]
    exact if_congr (and_iff_left fun e => hn₁ (e ▸ hx)) rfl rfl
  · rw [prevSibling_graft hcn, if_neg (not_headD_of_not_mem hc₂), if_pos rfl]
  · rw [nextSibling_graft hcn, if_pos rfl]
  · intro x hx
    rw [nextSibling_graft hcn, if_neg fun e : x = c => hc₂ (e ▸ hx),
      if_neg (not_getLastD_of_not_mem fun h₁ => hdis x h₁ hx)]
  · intro x hx
    rw [prevSibling_graft hcn, if_neg (c := x = c) fun e => hc₂ (e ▸ hx)]
    exact if_congr (and_iff_left fun e => hn₂ (e ▸ hx)) rfl rfl

/-- **Putting a node in puts it into one list.** -/
theorem graft {l₁ l₂ : List NodeId} (hk : kids p = l₁ ++ l₂) (hp : p ≠ .null) (hcn : c ≠ .null)
    (hc : L.parent c = .null)
    (hpc : ¬ Relation.ReflTransGen L.IsParent c p) :
    (L.graft p c (l₁.getLastD .null) (l₂.headD .null)).Forest (update kids p (l₁ ++ c :: l₂)) := by
  have hnot : ∀ q, c ∉ kids q := fun q hm =>
    (h.mem_iff.mp hm).2 ((h.mem_iff.mp hm).1.symm.trans hc)
  obtain ⟨-, hn₁, hn₂⟩ := h.parts hk
  have hmid : (c :: (l₁ ++ l₂)).Nodup := List.nodup_cons.mpr ⟨hk ▸ hnot p, hk ▸ h.nodup p⟩
  refine h.replace ?_ ?_ (List.nodup_middle.mpr hmid) ?_ ?_ (h.run_graft hk hcn (hnot p)) ?_ ?_ ?_
    (founded_update h.founded rfl hpc)
  · exact (update_of_ne hcn.symm _ _).trans h.parent_null
  · intro q x
    refine h.mem_update_iff rfl (fun x hx => by rw [hk]; simp [hx]) ?_
    by_cases hq : q = p
    · rw [hq, update_self]
      simp [hp]
    · rw [update_of_ne hq]
      exact ⟨fun hm => absurd hm (hnot q), fun hm => absurd hm.1.symm hq⟩
  · simp only [Links.graft, link, getLastD_eq_null_iff hn₁, if_neg hcn]
    exact h.firstChild_replace hk (c :: l₂)
  · simp only [Links.graft, link, headD_eq_null_iff hn₂, if_neg hcn]
    rw [List.append_cons, ← h.lastChild_replace hk (l₁ ++ [c]), getLastD_append]
    rfl
  · intro x _ hx
    simp only [List.mem_append, List.mem_cons, not_or] at hx
    rw [prevSibling_graft hcn, if_neg (not_headD_of_not_mem hx.2.2), if_neg hx.2.1]
  · intro x _ hx
    simp only [List.mem_append, List.mem_cons, not_or] at hx
    rw [nextSibling_graft hcn, if_neg hx.2.1, if_neg (not_getLastD_of_not_mem hx.1)]
  · intro x hx hx'
    rw [hk] at hx
    exact absurd (by simpa [or_left_comm] using Or.inr hx) hx'

end Forest

end Links

end MarkupQuery
