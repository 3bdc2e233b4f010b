import MarkupQuery.Proofs.Tree.Arena
import MarkupQuery.Proofs.Tree.Walks

/-!
# Lists and texts of subtrees

The visible elements below a node and the text of a node are given by recursion over the lists of
children, and no other functions obey the same laws. The loops that gather them run on a stack, and
each of them ends.

* `Tree.heldText`: a text by what a node holds, with `Tree.ownText_eq_heldText`;
* `Tree.ListsVisible`, `Tree.GathersText`: the two laws, with **`WellLinked.listsVisible_iff`** and
  **`WellLinked.gathersText_iff`**;
* `WellLinked.drains_firstChild`: the loop over the children of a node;
* **`Tree.descendants_after`**, **`Tree.textContent_after`**: the loops and the laws in the trees
  that come of changes.
-/

namespace MarkupQuery.Tree

variable {t : Tree} {kids : NodeId → List NodeId} {p n : NodeId}

/-! ## Laws -/

/-- The list of a node has nothing from a child that is not an element; a child that is one comes
with its own list behind it. -/
def ListsVisible (t : Tree) (f : NodeId → List NodeId) : Prop :=
  ∀ n, f n = (t.children n).flatMap fun c => if t.isElement c then c :: f c else []

/-- The text that a node holds, if what it holds is a text. -/
def heldText (t : Tree) (n : NodeId) : String :=
  match t.content? n with
  | some (.text s) => s
  | _ => ""

/-- The text of a node is the one it holds, and then the texts of the children, of whatever kind the
node is. -/
def GathersText (t : Tree) (f : NodeId → String) : Prop :=
  ∀ n, f n = t.heldText n ++ String.join ((t.children n).map f)

theorem ownText_eq_heldText (t : Tree) : t.ownText = t.heldText := by
  funext n
  rw [ownText, heldText, content?]
  cases t.node? n with
  | none => rfl
  | some node => cases hc : node.content <;> simp [hc, Content.text?]

theorem heldText_eq_empty (hn : t.contains n = false) : t.heldText n = "" := by
  rw [contains_eq_isSome_content?, Option.isSome_eq_false_iff, Option.isNone_iff_eq_none] at hn
  rw [heldText, hn]

theorem textContent_eq_empty (hn : t.contains n = false) : t.textContent n = "" := by
  rw [textContent, preorder_eq_nil hn]
  rfl

namespace WellLinked

variable (h : t.WellLinked kids)

include h

/-- **The visible nodes are the only lists that obey the law.** -/
theorem listsVisible_iff {f : NodeId → List NodeId} : t.ListsVisible f ↔ f = t.descendants := by
  refine ⟨fun hf => funext fun n => ?_, fun e => e ▸ h.descendants_eq⟩
  induction n using h.induction_up with
  | ih p ih =>
    rw [hf p, h.descendants_eq p]
    exact List.flatMap_congr fun c hc => by rw [ih c hc]

theorem gathersText_textContent : t.GathersText t.textContent := by
  intro n
  by_cases hn : t.contains n = true
  · have hjoin : ∀ ns : List NodeId, String.join ((ns.flatMap t.preorder).map t.ownText) =
        String.join (ns.map t.textContent) := by
      intro ns
      induction ns with
      | nil => rfl
      | cons n ns ih =>
        rw [List.flatMap_cons, List.map_append, String.join_append, ih, List.map_cons,
          String.join_cons, textContent]
    rw [textContent, h.preorder_eq hn, List.map_cons, String.join_cons, hjoin, ownText_eq_heldText]
  · rw [Bool.not_eq_true] at hn
    rw [textContent_eq_empty hn, heldText_eq_empty hn, h.children_eq_nil hn]
    rfl

/-- **The contents of text nodes are the only texts that obey the law.** -/
theorem gathersText_iff {f : NodeId → String} : t.GathersText f ↔ f = t.textContent := by
  refine ⟨fun hf => funext fun n => ?_, fun e => e ▸ h.gathersText_textContent⟩
  induction n using h.induction_up with
  | ih p ih =>
    rw [hf p, h.gathersText_textContent p, List.map_congr_left ih]

/-! ## Loops -/

theorem drains_firstChild (p : NodeId) :
    Drains (fun c => pushLink (t.nextSibling c) []) (pushLink (t.firstChild p) [])
      (t.children p) := by
  have key : ∀ {l₁ l₂ : List NodeId}, kids p = l₁ ++ l₂ →
      Drains (fun c => pushLink (t.nextSibling c) []) (pushLink (l₂.headD .null) []) l₂ := by
    intro l₁ l₂ hk
    induction l₂ generalizing l₁ with
    | nil => exact .nil
    | cons c l₂ ih =>
      have hnull : .null ∉ c :: l₂ := fun hm =>
        h.forest.null_not_mem (hk ▸ List.mem_append_right _ hm)
      rw [pushLink_headD hnull]
      refine .cons ?_
      rw [h.nextSibling_eq hk, List.append_nil]
      exact ih (hk.trans (List.append_cons _ _ _))
  rw [h.firstChild_eq]
  exact key ((h.children_eq p).symm.trans (List.nil_append _).symm)

theorem exists_drains_descendants (n : NodeId) :
    ∃ taken, Drains t.successors (pushLink (t.firstChild n) []) taken ∧ taken.length ≤ t.size ∧
      taken.filter (t.isElement ·) = t.descendants n := by
  obtain ⟨vs, hw⟩ := h.exists_walk (t.isElement · = true) (t.children n)
  obtain ⟨hd, hle⟩ := h.drains_descendants hw
  exact ⟨vs, hd, hle, (h.descendants_walk hw).symm⟩

theorem exists_drains_textContent (n : NodeId) :
    ∃ taken, Drains t.children [n] taken ∧ taken.length ≤ t.size ∧
      String.join (taken.map t.heldText) = t.textContent n := by
  by_cases hn : t.contains n = true
  · obtain ⟨vs, hw⟩ := h.exists_walk (fun _ => True) [n]
    obtain ⟨hd, hle⟩ := h.drains_preorder hn hw
    exact ⟨vs, hd, hle, by rw [textContent, h.preorder_walk hn hw, ownText_eq_heldText]⟩
  · rw [Bool.not_eq_true] at hn
    refine ⟨[n], .cons ?_, h.size_pos, ?_⟩
    · rw [h.children_eq_nil hn]
      exact .nil
    · rw [textContent_eq_empty hn, List.map_singleton, heldText_eq_empty hn]
      rfl

end WellLinked

/-! ## Trees that come of changes -/

/-- **The visible elements below a node are the list that the law gives.** -/
theorem descendants_after (changes : List Change) (n : NodeId) :
    (∃ taken, Drains (after changes).successors (pushLink ((after changes).firstChild n) []) taken ∧
      taken.length ≤ (after changes).size ∧
      taken.filter ((after changes).isElement ·) = (after changes).descendants n) ∧
    (∀ f, (after changes).ListsVisible f ↔ f = (after changes).descendants) ∧
    n ∉ (after changes).descendants n ∧
    (∀ m ∈ (after changes).descendants n, (after changes).Below n m) ∧
    ((after changes).descendants n).Nodup := by
  obtain ⟨kids, h⟩ := wellLinked_after changes
  have hbelow : ∀ m ∈ (after changes).descendants n, (after changes).Below n m :=
    fun m hm => (h.mem_descendants.mp hm).2.1
  exact ⟨h.exists_drains_descendants n, fun f => h.listsVisible_iff,
    fun hn => h.not_below_self (hbelow n hn), hbelow, h.nodup_descendants n⟩

/-- **The text of a node is the one that the law gives.** -/
theorem textContent_after (changes : List Change) (n : NodeId) :
    (∃ taken, Drains (after changes).children [n] taken ∧
      taken.length ≤ (after changes).size ∧
      String.join (taken.map (after changes).heldText) = (after changes).textContent n) ∧
    (∀ p, Drains (fun c => pushLink ((after changes).nextSibling c) [])
      (pushLink ((after changes).firstChild p) []) ((after changes).children p)) ∧
    (∀ f, (after changes).GathersText f ↔ f = (after changes).textContent) ∧
    ((after changes).contains n = false → (after changes).textContent n = "") := by
  obtain ⟨kids, h⟩ := wellLinked_after changes
  exact ⟨h.exists_drains_textContent n, h.drains_firstChild, fun f => h.gathersText_iff,
    textContent_eq_empty⟩

/-- Texts below an element, below a text and below a comment. -/
theorem textContent_after_nested :
    let t := after [.createElement "p", .createText "one ", .createText "two",
      .createComment "none", .createText " three", .insert .root (.slot 1) none,
      .insert (.slot 1) (.slot 2) none, .insert (.slot 2) (.slot 3) none,
      .insert (.slot 1) (.slot 4) none, .insert (.slot 4) (.slot 5) none]
    t.textContent .root = "one two three" ∧ t.textContent (.slot 2) = "one two" ∧
      t.textContent (.slot 4) = " three" ∧ t.textContent (.slot 6) = "" := by
  intro t
  obtain ⟨-, -, hlaw, hunknown⟩ := textContent_after _ (.slot 6)
  have htext : t.GathersText t.textContent := (hlaw _).mpr rfl
  have hroot : t.children .root = [.slot 1] := by decide
  have hp : t.children (.slot 1) = [.slot 2, .slot 4] := by decide
  have hone : t.children (.slot 2) = [.slot 3] := by decide
  have htwo : t.children (.slot 3) = [] := by decide
  have hcomment : t.children (.slot 4) = [.slot 5] := by decide
  have hthree : t.children (.slot 5) = [] := by decide
  have htexts : t.textContent (.slot 2) = "one two" := by
    rw [htext, hone, List.map_singleton, htext, htwo]
    decide
  have hbelow : t.textContent (.slot 4) = " three" := by
    rw [htext, hcomment, List.map_singleton, htext, hthree]
    decide
  refine ⟨?_, htexts, hbelow, hunknown (by decide)⟩
  rw [htext, hroot, List.map_singleton, htext, hp, List.map_cons, htexts, List.map_singleton,
    hbelow]
  decide

end MarkupQuery.Tree
