import MarkupQuery.Proofs.Query.Targets
import MarkupQuery.Proofs.Tree.Arena

/-!
# Later siblings

The later siblings of several nodes are gathered run by run. The loop over a run stops at the first
sibling that is in the set already, since the rest of the run came in together with it. So the set
is the union of what comes after each node, in whatever order the nodes are given and however many
of them share a run.

* `Tree.AddsRun`, `Tree.AddsRuns`: the loops, of any number of steps;
* `Tree.addsRun_iff`, `WellLinked.addsRuns_iff`: they end, with what `Combinator.targets` gives;
* `Tree.laterSiblings`, `WellLinked.mem_laterSiblings`: the nodes behind a node in a list of children;
* **`Tree.targets_generalSibling_after`**: the early stop loses nothing.
-/

namespace MarkupQuery.Tree

open Relation

variable {t : Tree} {kids : NodeId → List NodeId} {left : List NodeId} {a n : NodeId}
  {set set' : Std.HashSet NodeId}

/-! ## Loops -/

/-- The loop over the run of siblings that begins at a node adds one after the other. It stops where
the run ends, and at a sibling that the set holds. -/
inductive AddsRun (t : Tree) : NodeId → Std.HashSet NodeId → Std.HashSet NodeId → Prop
  | stop {n : NodeId} {set : Std.HashSet NodeId} (hn : n = .null ∨ set.contains n = true) :
      AddsRun t n set set
  | add {n : NodeId} {set set' : Std.HashSet NodeId} (hn : ¬ (n = .null ∨ set.contains n = true))
      (hr : AddsRun t (t.nextSibling n) (set.insert n) set') : AddsRun t n set set'

/-- One such loop after another, each over the run behind a node of the list. -/
inductive AddsRuns (t : Tree) : List NodeId → Std.HashSet NodeId → Std.HashSet NodeId → Prop
  | nil {set : Std.HashSet NodeId} : AddsRuns t [] set set
  | cons {a : NodeId} {left : List NodeId} {set mid set' : Std.HashSet NodeId}
      (hr : t.AddsRun (t.nextSibling a) set mid) (hrs : AddsRuns t left mid set') :
      AddsRuns t (a :: left) set set'

theorem addsRun_of_stop (hn : n = .null ∨ set.contains n = true) :
    t.AddsRun n set set' ↔ set' = set := by
  constructor
  · intro hr
    cases hr with
    | stop _ => rfl
    | add hn' _ => exact absurd hn hn'
  · rintro rfl
    exact .stop hn

theorem addsRun_of_add (hn : ¬ (n = .null ∨ set.contains n = true)) :
    t.AddsRun n set set' ↔ t.AddsRun (t.nextSibling n) (set.insert n) set' := by
  constructor
  · intro hr
    cases hr with
    | stop hn' => exact absurd hn' hn
    | add _ hr => exact hr
  · exact .add hn

theorem addsRun_iff {fuel : ℕ} (hf : t.nextSibling^[fuel] n = .null) :
    t.AddsRun n set set' ↔ set' = t.addFollowing fuel n set := by
  induction fuel generalizing n set with
  | zero => exact addsRun_of_stop (.inl hf)
  | succ fuel ih =>
    rw [addFollowing]
    by_cases hn : n = .null ∨ set.contains n = true
    · rw [if_pos (by simpa using hn)]
      exact addsRun_of_stop hn
    · rw [if_neg (by simpa using hn), addsRun_of_add hn]
      exact ih hf

namespace WellLinked

variable (h : t.WellLinked kids)

include h

theorem addsRuns_iff :
    t.AddsRuns left set set' ↔ set' = left.foldl (Combinator.generalSibling.addTargets t) set := by
  induction left generalizing set with
  | nil =>
    refine ⟨fun hr => ?_, fun e => e ▸ .nil⟩
    cases hr
    rfl
  | cons a left ih =>
    have hrun : ∀ {mid}, t.AddsRun (t.nextSibling a) set mid ↔
        mid = Combinator.generalSibling.addTargets t set a := addsRun_iff (h.iterate_nextSibling _)
    rw [List.foldl_cons]
    constructor
    · intro hr
      cases hr with
      | cons hr hrs => exact hrun.mp hr ▸ ih.mp hrs
    · exact fun e => .cons (hrun.mpr rfl) (ih.mpr e)

end WellLinked

/-! ## Lists -/

/-- The siblings behind a node in the list of children that it is in. -/
def laterSiblings (t : Tree) (a : NodeId) : List NodeId :=
  ((t.children (t.parent a)).dropWhile (· ≠ a)).tail

theorem WellLinked.mem_laterSiblings (h : t.WellLinked kids) :
    n ∈ t.laterSiblings a ↔ TransGen t.NextTo a n := by
  rw [laterSiblings, h.children_eq]
  by_cases hp : t.parent a = .null
  · have hnil : kids .null = [] := by
      rw [← h.children_eq]
      exact h.children_eq_nil rfl
    rw [hp, hnil]
    exact iff_of_false List.not_mem_nil (h.not_nextTo_of_orphan hp)
  · obtain ⟨l₁, l₂, hk⟩ := h.exists_sides hp
    have hne : ∀ x ∈ l₁, decide (x ≠ a) = true := fun x hx =>
      decide_eq_true fun e => (h.forest.not_mem_sides hk).1 (e ▸ hx)
    rw [h.nextTo_trans_iff hk, hk, List.dropWhile_append_of_pos hne,
      List.dropWhile_cons_of_neg (by simp), List.tail_cons]

/-! ## Trees that come of changes -/

/-- **The early stop loses nothing**: the loops end with all later siblings. -/
theorem targets_generalSibling_after (changes : List Change) (left : List NodeId) :
    (∀ set, (after changes).AddsRuns left ∅ set ↔
      set = Combinator.generalSibling.targets (after changes) left) ∧
    (∀ n, (Combinator.generalSibling.targets (after changes) left).contains n = true ↔
      n ∈ left.flatMap (after changes).laterSiblings) ∧
    ∀ a n, n ∈ (after changes).laterSiblings a ↔ TransGen (after changes).NextTo a n := by
  obtain ⟨kids, h⟩ := wellLinked_after changes
  refine ⟨fun set => h.addsRuns_iff, fun n => ?_, fun a n => h.mem_laterSiblings⟩
  rw [h.contains_targets (by decide), List.mem_flatMap]
  exact exists_congr fun a => and_congr_right fun _ => h.mem_laterSiblings.symm

end MarkupQuery.Tree
