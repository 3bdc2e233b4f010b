import MarkupQuery.Proofs.Tree.Ancestors

/-!
# Walks through subtrees

The walks of a tree run on a stack and on fuel. Both are *document-order walks*: a node is visited
before the nodes below it, and these before its later siblings. They differ in the nodes that are
entered, and in what they keep on the stack.

* `Tree.Walk`: the nodes visited from a list of nodes;
* `Tree.Enters`: one step down from a node that is entered, with **`Walk.mem_iff`**;
* `Tree.Apart`: nodes none of which lies below another, with **`WellLinked.nodup_walk`**;
* `Tree.Drains`: a loop on a stack, of any number of steps, with **`Walk.drains`** for a stack of
  nodes and **`WellLinked.drains_siblings`** for a stack of runs of siblings;
* **`WellLinked.preorder_eq`**: a node, then the subtrees of its children;
* `Tree.Visible`: below a node, with nothing but elements in between;
* **`WellLinked.descendants_eq`**, **`WellLinked.mem_descendants`**,
  **`WellLinked.descendants_eq_filter`**: the visible nodes, by recursion, one by one, and in
  document order.
-/

namespace MarkupQuery.Tree

open Relation

variable {t : Tree} {kids : NodeId → List NodeId} {enter : NodeId → Prop}
  {ns vs ws : List NodeId} {a b p c n m : NodeId}

/-! ## Document-order walks -/

/-- A walk from the nodes of the first list visits the nodes of the second. -/
inductive Walk (t : Tree) (enter : NodeId → Prop) : List NodeId → List NodeId → Prop
  | nil : Walk t enter [] []
  | enter {n ns below rest} (hn : enter n) (hb : Walk t enter (t.children n) below)
      (hr : Walk t enter ns rest) : Walk t enter (n :: ns) (n :: (below ++ rest))
  | pass {n ns rest} (hn : ¬ enter n) (hr : Walk t enter ns rest) :
      Walk t enter (n :: ns) (n :: rest)

/-- One step down, from a node that is entered. -/
def Enters (t : Tree) (enter : NodeId → Prop) (a b : NodeId) : Prop := enter a ∧ t.HasChild a b

theorem below_of_enters (h : TransGen (t.Enters enter) a b) : t.Below a b :=
  h.lift id fun _ _ h => h.2

namespace Walk

theorem append (hw : t.Walk enter ns vs) {ms : List NodeId} (hw' : t.Walk enter ms ws) :
    t.Walk enter (ns ++ ms) (vs ++ ws) := by
  induction hw with
  | nil => exact hw'
  | enter hn hb hr _ ih =>
    rw [List.cons_append, List.cons_append, List.append_assoc]
    exact .enter hn hb ih
  | pass hn hr ih => exact .pass hn ih

theorem congr {t' : Tree} (hw : t.Walk enter ns vs) (hc : ∀ n ∈ vs, t'.children n = t.children n) :
    t'.Walk enter ns vs := by
  induction hw with
  | nil => exact .nil
  | @enter n ns below rest hn hb hr ihb ihr =>
    refine .enter hn ?_ (ihr fun m hm => hc m (by simp [hm]))
    rw [hc n List.mem_cons_self]
    exact ihb fun m hm => hc m (by simp [hm])
  | pass hn hr ih => exact .pass hn (ih fun m hm => hc m (List.mem_cons_of_mem _ hm))

/-- **A walk visits the nodes reached by entering steps.** -/
theorem mem_iff (hw : t.Walk enter ns vs) :
    m ∈ vs ↔ ∃ n ∈ ns, ReflTransGen (t.Enters enter) n m := by
  induction hw with
  | nil => simp
  | @enter n ns below rest hn hb hr ihb ihr =>
    rw [List.mem_cons, List.mem_append, ihb, ihr, List.exists_mem_cons_iff, ← or_assoc]
    refine or_congr ?_ Iff.rfl
    rw [ReflTransGen.cases_head_iff]
    refine or_congr eq_comm ⟨?_, ?_⟩
    · rintro ⟨c, hc, hm⟩
      exact ⟨c, ⟨hn, hc⟩, hm⟩
    · rintro ⟨c, ⟨-, hc⟩, hm⟩
      exact ⟨c, hc, hm⟩
  | @pass n ns rest hn hr ih =>
    rw [List.mem_cons, ih, List.exists_mem_cons_iff]
    refine or_congr ?_ Iff.rfl
    rw [ReflTransGen.cases_head_iff]
    refine ⟨fun e => .inl e.symm, ?_⟩
    rintro (e | ⟨c, ⟨hn', -⟩, -⟩)
    · exact e.symm
    · exact absurd hn' hn

theorem sublist (hw : t.Walk enter ns ws) (hv : t.Walk (fun _ => True) ns vs) :
    ws.Sublist vs := by
  induction hw generalizing vs with
  | nil => cases hv; exact .slnil
  | enter hn hb hr ihb ihr =>
    cases hv with
    | enter hn' hb' hr' => exact ((ihb hb').append (ihr hr')).cons_cons _
    | pass hn' hr' => exact absurd trivial hn'
  | pass hn hr ih =>
    cases hv with
    | enter hn' hb' hr' => exact ((ih hr').trans (List.sublist_append_right _ _)).cons_cons _
    | pass hn' hr' => exact absurd trivial hn'

theorem above (hw : t.Walk enter ns vs) (hm : m ∈ vs) :
    ∃ n ∈ ns, n = m ∨ t.Below n m := by
  obtain ⟨n, hn, hm⟩ := hw.mem_iff.mp hm
  exact ⟨n, hn, (reflTransGen_iff_eq_or_transGen.mp hm).imp Eq.symm below_of_enters⟩

end Walk

/-- Different nodes, none of them below another. -/
structure Apart (t : Tree) (ns : List NodeId) : Prop where
  nodup : ns.Nodup
  not_below : ∀ a ∈ ns, ∀ b ∈ ns, ¬ t.Below a b

theorem Apart.tail (ha : t.Apart (n :: ns)) : t.Apart ns :=
  ⟨(List.nodup_cons.mp ha.nodup).2, fun a ha' b hb =>
    ha.not_below a (List.mem_cons_of_mem _ ha') b (List.mem_cons_of_mem _ hb)⟩

namespace WellLinked

variable (h : t.WellLinked kids)

include h

theorem apart_singleton (n : NodeId) : t.Apart [n] := by
  refine ⟨List.nodup_singleton n, fun a ha b hb => ?_⟩
  rw [List.mem_singleton.mp ha, List.mem_singleton.mp hb]
  exact h.not_below_self

theorem apart_children (p : NodeId) : t.Apart (t.children p) := by
  refine ⟨h.children_eq p ▸ h.forest.nodup p, fun a ha b hb hab => ?_⟩
  have e := (h.hasChild_iff.mp hb).1
  have hap := (h.below_iff.mp hab).2
  rw [e] at hap
  exact h.not_below_self (TransGen.head' ha hap)

/-- **A walk from nodes that lie apart visits no node twice.** -/
theorem nodup_walk (hw : t.Walk enter ns vs) (ha : t.Apart ns) : vs.Nodup := by
  induction hw with
  | nil => exact List.nodup_nil
  | @enter n ns below rest hen hb hr ihb ihr =>
    have hbelow : ∀ {m}, m ∈ below → t.Below n m := by
      intro m hm
      obtain ⟨c, hc, hm⟩ := hb.above hm
      exact TransGen.head' hc (reflTransGen_iff_eq_or_transGen.mpr (hm.imp_left Eq.symm))
    have hrest : ∀ {m}, m ∈ rest → m ≠ n ∧ ¬ t.Below n m := by
      intro m hm
      obtain ⟨x, hx, hm⟩ := hr.above hm
      have hxn : x ≠ n := fun e => (List.nodup_cons.mp ha.nodup).1 (e ▸ hx)
      have hnx := ha.not_below n List.mem_cons_self x (List.mem_cons_of_mem _ hx)
      have hxn' := ha.not_below x (List.mem_cons_of_mem _ hx) n List.mem_cons_self
      rcases hm with rfl | hxm
      · exact ⟨hxn, hnx⟩
      · refine ⟨fun e => hxn' (e ▸ hxm), fun hnm => ?_⟩
        -- of two nodes above `m` one lies above the other
        rcases h.below_total hnm hxm with e | hb | hb
        · exact hxn e.symm
        · exact hnx hb
        · exact hxn' hb
    rw [List.nodup_cons, List.nodup_append, List.mem_append]
    refine ⟨?_, ihb (h.apart_children n), ihr ha.tail, ?_⟩
    · rintro (hm | hm)
      · exact h.not_below_self (hbelow hm)
      · exact (hrest hm).1 rfl
    · rintro m hm m' hm' rfl
      exact (hrest hm').2 (hbelow hm)
  | @pass n ns rest hen hr ih =>
    rw [List.nodup_cons]
    refine ⟨fun hm => ?_, ih ha.tail⟩
    obtain ⟨x, hx, rfl | hxm⟩ := hr.above hm
    · exact (List.nodup_cons.mp ha.nodup).1 hx
    · exact ha.not_below x (List.mem_cons_of_mem _ hx) n List.mem_cons_self hxm

theorem contains_of_mem_walk (hw : t.Walk enter ns vs) (hc : ∀ a ∈ ns, t.contains a = true) :
    ∀ m ∈ vs, t.contains m = true := by
  intro m hm
  obtain ⟨n, hn, rfl | hnm⟩ := hw.above hm
  · exact hc n hn
  · exact (h.contains_of_below hnm).2

theorem length_walk_le (hw : t.Walk enter ns vs) (ha : t.Apart ns)
    (hc : ∀ a ∈ ns, t.contains a = true) : vs.length ≤ t.size := by
  have hsub : vs ⊆ t.ids := fun m hm => contains_iff_mem_ids.mp (h.contains_of_mem_walk hw hc m hm)
  have hle := (h.nodup_walk hw ha).length_le_of_subset hsub
  rwa [ids, List.length_map, List.length_range] at hle

theorem exists_walk (enter : NodeId → Prop) (ns : List NodeId) : ∃ vs, t.Walk enter ns vs := by
  have hlist : ∀ ns : List NodeId, (∀ n ∈ ns, ∃ vs, t.Walk enter (t.children n) vs) →
      ∃ vs, t.Walk enter ns vs := by
    intro ns hns
    induction ns with
    | nil => exact ⟨_, .nil⟩
    | cons n ns ih =>
      obtain ⟨rest, hr⟩ := ih fun m hm => hns m (List.mem_cons_of_mem _ hm)
      obtain ⟨below, hb⟩ := hns n List.mem_cons_self
      by_cases hn : enter n
      · exact ⟨_, .enter hn hb hr⟩
      · exact ⟨_, .pass hn hr⟩
  exact hlist ns fun n _ => h.induction_up (fun p hp => hlist _ hp) n

end WellLinked

/-! ## Loops on a stack -/

/-- A loop takes the node on top of its stack and puts others in its place, until the stack is
empty. It takes the nodes of the second list. -/
inductive Drains (push : NodeId → List NodeId) : List NodeId → List NodeId → Prop
  | nil : Drains push [] []
  | cons {n stack taken} (hd : Drains push (push n ++ stack) taken) :
      Drains push (n :: stack) (n :: taken)

theorem Walk.drains (hw : t.Walk (fun _ => True) ns vs) (hd : Drains t.children ms ws) :
    Drains t.children (ns ++ ms) (vs ++ ws) := by
  induction hw generalizing ms ws with
  | nil => exact hd
  | enter hn hb hr ihb ihr =>
    rw [List.cons_append, List.cons_append, List.append_assoc]
    exact .cons (ihb (ihr hd))
  | pass hn hr => exact absurd trivial hn

/-- The ids that the loop over elements puts in place of a node: the first child, if the node is
entered, and below it the next sibling. -/
def successors (t : Tree) (n : NodeId) : List NodeId :=
  pushLink (if t.isElement n then t.firstChild n else .null) (pushLink (t.nextSibling n) [])

theorem pushLink_append (n : NodeId) (stack stack' : List NodeId) :
    pushLink n (stack ++ stack') = pushLink n stack ++ stack' := by
  unfold pushLink
  split_ifs <;> rfl

theorem pushLink_headD {l : List NodeId} (hl : .null ∉ l) (stack : List NodeId) :
    pushLink (l.headD .null) stack = match l with
      | [] => stack
      | c :: _ => c :: stack := by
  cases l with
  | nil => rfl
  | cons c l => exact if_neg fun e : c = .null => hl (e ▸ List.mem_cons_self)

theorem WellLinked.drains_siblings (h : t.WellLinked kids) {l₁ l₂ : List NodeId}
    (hk : kids p = l₁ ++ l₂) (hw : t.Walk (t.isElement · = true) l₂ vs)
    (hd : Drains t.successors ms ws) :
    Drains t.successors (pushLink (l₂.headD .null) ms) (vs ++ ws) := by
  induction hw generalizing p l₁ ms ws with
  | nil => exact hd
  | @enter n ns below rest hn hb hr ihb ihr =>
    have hnull : .null ∉ n :: ns := fun hm =>
      h.forest.null_not_mem (hk ▸ List.mem_append_right _ hm)
    rw [pushLink_headD hnull, List.cons_append, List.append_assoc]
    refine .cons ?_
    rw [successors, if_pos hn, h.nextSibling_eq hk, h.firstChild_eq, ← pushLink_append,
      ← pushLink_append, List.nil_append]
    exact ihb ((h.children_eq n).symm.trans (List.nil_append _).symm)
      (ihr (hk.trans (List.append_cons _ _ _)) hd)
  | @pass n ns rest hn hr ih =>
    have hnull : .null ∉ n :: ns := fun hm =>
      h.forest.null_not_mem (hk ▸ List.mem_append_right _ hm)
    rw [pushLink_headD hnull, List.cons_append]
    refine .cons ?_
    rw [successors, if_neg hn, h.nextSibling_eq hk, pushLink, if_pos rfl, ← pushLink_append,
      List.nil_append]
    exact ih (hk.trans (List.append_cons _ _ _)) hd

/-! ## All nodes of a subtree -/

theorem preorderFrom_nil (fuel : ℕ) : t.preorderFrom fuel [] = [] := by cases fuel <;> rfl

theorem preorder_eq_nil (hn : t.contains n = false) : t.preorder n = [] := by
  rw [preorder]
  cases t.size with
  | zero => rfl
  | succ fuel => rw [preorderFrom, if_neg (by rw [hn]; exact Bool.false_ne_true), preorderFrom_nil]

theorem preorderFrom_of_drains (hd : Drains t.children ns vs)
    (hc : ∀ m ∈ vs, t.contains m = true) {fuel : ℕ} (hf : vs.length ≤ fuel) :
    t.preorderFrom fuel ns = vs := by
  induction hd generalizing fuel with
  | nil => exact preorderFrom_nil fuel
  | @cons n stack taken hd ih =>
    obtain ⟨fuel, rfl⟩ := Nat.exists_eq_add_one_of_ne_zero (Nat.ne_zero_of_lt hf)
    have hc' : ∀ m ∈ taken, t.contains m = true := fun m hm => hc m (List.mem_cons_of_mem _ hm)
    rw [preorderFrom, if_pos (hc n List.mem_cons_self), ih hc' (Nat.le_of_succ_le_succ hf)]

namespace WellLinked

variable (h : t.WellLinked kids)

include h

theorem drains_preorder (hn : t.contains n = true) (hw : t.Walk (fun _ => True) [n] vs) :
    Drains t.children [n] vs ∧ vs.length ≤ t.size := by
  have hd := hw.drains .nil
  rw [List.append_nil, List.append_nil] at hd
  exact ⟨hd, h.length_walk_le hw (h.apart_singleton n) (List.forall_mem_singleton.mpr hn)⟩

theorem preorder_walk (hn : t.contains n = true) (hw : t.Walk (fun _ => True) [n] vs) :
    t.preorder n = vs := by
  obtain ⟨hd, hle⟩ := h.drains_preorder hn hw
  exact preorderFrom_of_drains hd
    (h.contains_of_mem_walk hw (List.forall_mem_singleton.mpr hn)) hle

/-- **A subtree is its top node and the subtrees of the children.** -/
theorem preorder_eq (hn : t.contains n = true) :
    t.preorder n = n :: (t.children n).flatMap t.preorder := by
  obtain ⟨below, hb⟩ := h.exists_walk (fun _ => True) (t.children n)
  have hw : t.Walk (fun _ => True) [n] (n :: (below ++ [])) := .enter trivial hb .nil
  rw [h.preorder_walk hn hw, List.append_nil]
  have key : ∀ {ns vs : List NodeId}, t.Walk (fun _ => True) ns vs →
      (∀ m ∈ ns, t.contains m = true) → vs = ns.flatMap t.preorder := by
    intro ns vs hw hc
    induction hw with
    | nil => rfl
    | @enter n ns below rest hn hb hr ihb ihr =>
      have hp := h.preorder_walk (hc n List.mem_cons_self) (.enter hn hb .nil)
      rw [List.append_nil] at hp
      rw [List.flatMap_cons, hp, List.cons_append,
        ihr fun m hm => hc m (List.mem_cons_of_mem _ hm)]
    | pass hn hr => exact absurd trivial hn
  rw [key hb fun m hm => (h.contains_of_below (.single hm)).2]

theorem mem_preorder : m ∈ t.preorder n ↔ t.contains n = true ∧ ReflTransGen t.HasChild n m := by
  by_cases hn : t.contains n = true
  · obtain ⟨vs, hw⟩ := h.exists_walk (fun _ => True) [n]
    rw [h.preorder_walk hn hw, hw.mem_iff]
    simp only [List.mem_singleton, exists_eq_left, hn, true_and]
    exact ⟨fun hm => hm.lift id fun _ _ h => h.2, fun hm => hm.lift id fun _ _ h => ⟨trivial, h⟩⟩
  · rw [preorder_eq_nil (Bool.eq_false_iff.mpr hn)]
    simp [hn]

theorem nodup_preorder (n : NodeId) : (t.preorder n).Nodup := by
  by_cases hn : t.contains n = true
  · obtain ⟨vs, hw⟩ := h.exists_walk (fun _ => True) [n]
    rw [h.preorder_walk hn hw]
    exact h.nodup_walk hw (h.apart_singleton n)
  · rw [preorder_eq_nil (Bool.eq_false_iff.mpr hn)]
    exact List.nodup_nil

/-! ## Visible nodes -/

omit h in
theorem descendantsFrom_of_drains (hd : Drains t.successors ns vs) {fuel : ℕ}
    (hf : vs.length ≤ fuel) : t.descendantsFrom fuel ns = vs.filter (t.isElement ·) := by
  induction hd generalizing fuel with
  | nil => cases fuel <;> rfl
  | @cons n stack taken hd ih =>
    obtain ⟨fuel, rfl⟩ := Nat.exists_eq_add_one_of_ne_zero (Nat.ne_zero_of_lt hf)
    have ih := ih (Nat.le_of_succ_le_succ hf)
    rw [successors, ← pushLink_append, ← pushLink_append, List.nil_append] at ih
    by_cases hn : t.isElement n = true
    · rw [if_pos hn] at ih
      rw [descendantsFrom, if_pos hn, ih, List.filter_cons_of_pos hn]
    · rw [if_neg hn, pushLink, if_pos rfl] at ih
      rw [descendantsFrom, if_neg hn, ih, List.filter_cons_of_neg hn]

theorem drains_descendants (hw : t.Walk (t.isElement · = true) (t.children n) vs) :
    Drains t.successors (pushLink (t.firstChild n) []) vs ∧ vs.length ≤ t.size := by
  have hd := h.drains_siblings ((h.children_eq n).symm.trans (List.nil_append _).symm) hw .nil
  rw [← h.firstChild_eq, List.append_nil] at hd
  exact ⟨hd, h.length_walk_le hw (h.apart_children n) fun a ha =>
    (h.contains_of_below (.single ha)).2⟩

theorem descendants_walk (hw : t.Walk (t.isElement · = true) (t.children n) vs) :
    t.descendants n = vs.filter (t.isElement ·) := by
  obtain ⟨hd, hle⟩ := h.drains_descendants hw
  exact descendantsFrom_of_drains hd hle

/-- **The visible nodes come from the child elements, each with those below it.** -/
theorem descendants_eq (n : NodeId) : t.descendants n =
    (t.children n).flatMap fun c => if t.isElement c then c :: t.descendants c else [] := by
  have key : ∀ {ns vs : List NodeId}, t.Walk (t.isElement · = true) ns vs →
      vs.filter (t.isElement ·) =
        ns.flatMap fun c => if t.isElement c then c :: t.descendants c else [] := by
    intro ns vs hw
    induction hw with
    | nil => rfl
    | enter hn hb hr ihb ihr =>
      rw [List.filter_cons_of_pos hn, List.filter_append, ihr, ← h.descendants_walk hb,
        List.flatMap_cons, if_pos hn, List.cons_append]
    | pass hn hr ih => rw [List.filter_cons_of_neg hn, ih, List.flatMap_cons, if_neg hn,
        List.nil_append]
  obtain ⟨vs, hw⟩ := h.exists_walk (t.isElement · = true) (t.children n)
  rw [h.descendants_walk hw, key hw]

end WellLinked

/-- An element strictly below `a`, with nothing but elements in between. -/
def Visible (t : Tree) (a n : NodeId) : Prop :=
  t.isElement n = true ∧ t.Below a n ∧ ∀ m, t.Below a m → t.Below m n → t.isElement m = true

namespace WellLinked

variable (h : t.WellLinked kids)

include h

/-- **The walk over elements meets the visible nodes.** -/
theorem mem_descendants : n ∈ t.descendants a ↔ t.Visible a n := by
  obtain ⟨vs, hw⟩ := h.exists_walk (t.isElement · = true) (t.children a)
  rw [h.descendants_walk hw, List.mem_filter, hw.mem_iff, and_comm]
  refine and_congr Iff.rfl ⟨?_, ?_⟩
  · rintro ⟨c, hc, hn⟩
    refine ⟨TransGen.head' hc (hn.lift id fun _ _ h => h.2), fun m ham hmn => ?_⟩
    induction hn with
    | refl =>
      obtain ⟨x, hx, -⟩ := TransGen.head'_iff.mp ham
      have hm := (h.below_iff.mp hmn).2
      rw [(h.hasChild_iff.mp hc).1] at hm
      exact absurd (ham.trans_left hm) h.not_below_self
    | @tail b d _ hbd ih =>
      obtain ⟨hb, hd⟩ := hbd
      have hm := (h.below_iff.mp hmn).2
      rw [(h.hasChild_iff.mp hd).1] at hm
      rcases reflTransGen_iff_eq_or_transGen.mp hm with rfl | hm
      · exact hb
      · exact ih hm
  · rintro ⟨han, hall⟩
    induction n using h.founded.induction with
    | h n ih =>
      obtain ⟨b, hab, hbn⟩ := TransGen.tail'_iff.mp han
      rcases reflTransGen_iff_eq_or_transGen.mp hab with rfl | hab
      · exact ⟨n, hbn, .refl⟩
      · obtain ⟨c, hc, hcb⟩ := ih b hbn hab fun m ham hmb => hall m ham (hmb.tail hbn)
        exact ⟨c, hc, hcb.tail ⟨hall b hab (.single hbn), hbn⟩⟩

theorem nodup_descendants (a : NodeId) : (t.descendants a).Nodup := by
  obtain ⟨vs, hw⟩ := h.exists_walk (t.isElement · = true) (t.children a)
  rw [h.descendants_walk hw]
  exact (h.nodup_walk hw (h.apart_children a)).filter _

theorem descendants_sublist_preorder (a : NodeId) : (t.descendants a).Sublist (t.preorder a) := by
  by_cases ha : t.contains a = true
  · obtain ⟨ws, hw⟩ := h.exists_walk (t.isElement · = true) (t.children a)
    obtain ⟨vs, hv⟩ := h.exists_walk (fun _ => True) (t.children a)
    rw [h.descendants_walk hw, h.preorder_walk ha (.enter trivial hv .nil), List.append_nil]
    exact (List.filter_sublist.trans (hw.sublist hv)).cons _
  · have he : t.descendants a = [] := List.eq_nil_iff_forall_not_mem.mpr fun m hm =>
      ha (h.contains_of_below (h.mem_descendants.mp hm).2.1).1
    rw [he]
    exact List.nil_sublist _

open Classical in
theorem descendants_eq_filter (a : NodeId) :
    t.descendants a = (t.preorder a).filter fun n => t.Visible a n := by
  have key : ∀ {l₁ l₂ : List NodeId}, l₁.Sublist l₂ → l₂.Nodup →
      l₁ = l₂.filter fun n => n ∈ l₁ := by
    intro l₁ l₂ hs hn
    induction hs with
    | slnil => rfl
    | @cons l₁ l₂ x hs ih =>
      obtain ⟨hx, hn⟩ := List.nodup_cons.mp hn
      rw [List.filter_cons_of_neg (by simpa using fun hm => hx (hs.subset hm))]
      exact ih hn
    | @cons_cons l₁ l₂ x hs ih =>
      obtain ⟨hx, hn⟩ := List.nodup_cons.mp hn
      rw [List.filter_cons_of_pos (by simp)]
      conv_lhs => rw [ih hn]
      refine congrArg (x :: ·) (List.filter_congr fun y hy => ?_)
      have hyx : y ≠ x := fun e => hx (e ▸ hy)
      simp [hyx]
  conv_lhs => rw [key (h.descendants_sublist_preorder a) (h.nodup_preorder a)]
  exact List.filter_congr fun n _ => decide_eq_decide.mpr h.mem_descendants

theorem visible_trans (hb : t.Visible a b) (hn : t.Visible b n) : t.Visible a n := by
  refine ⟨hn.1, hb.2.1.trans hn.2.1, fun m ham hmn => ?_⟩
  rcases h.below_total hmn hn.2.1 with rfl | hmb | hbm
  · exact hb.1
  · exact hb.2.2 m ham hmb
  · exact hn.2.2 m hbm hmn

omit h in
theorem visible_of_below (hab : t.Below a b) (han : t.Visible a n) (hbn : t.Below b n) :
    t.Visible b n :=
  ⟨han.1, hbn, fun m hbm hmn => han.2.2 m (hab.trans hbm) hmn⟩

end WellLinked

end MarkupQuery.Tree
