import MarkupQuery.Proofs.Query.Found
import MarkupQuery.Proofs.Query.Targets
import MarkupQuery.Proofs.Tree.Walks
import MarkupQuery.Query.Search

/-!
# What a search lists

A search remembers the elements below the context, leaves out subtrees that it has walked, and stops
at its limit. None of this changes what it lists: each step of a chain has a list of its own, and
the answer is made of the lists of the alternatives.

* `Search.indexed?_eq_some`: what is known of a node that the index gives;
* `Search.Gives`: what a computation gives whatever is remembered, with `Search.Gives.bind`;
* `Search.heads`, `Search.next`, `Search.along`, `Search.listed`: the lists;
* `Search.below_of_mem_heads`, `Search.below_of_mem_next`: what is listed lies below the context;
* `Search.gives_collectBelow`: leaving out what has been walked loses nothing;
* **`Search.run_toList`**: the lists of the alternatives, one after the other, without repeats, and
  no more nodes than the limit allows.
-/

namespace MarkupQuery

/-! ## The index -/

section

variable {t : Tree} {kids : NodeId → List NodeId} {c : Compound} {n : NodeId}

theorem Compound.mem_of_id? {v : String} (hv : c.id? = some v) : .id v ∈ c.parts := by
  obtain ⟨part, hp, hid⟩ := List.exists_of_findSome?_eq_some hv
  cases part with
  | id value => exact Option.some.inj hid ▸ hp
  | universal => cases hid
  | tag name => cases hid
  | attr test => cases hid
  | classes names => cases hid

theorem Compound.carriesId_of_holdsAt {v : String} (hv : c.id? = some v)
    (hc : c.holdsAt t n = true) : t.carriesId n v = true := by
  rw [Compound.holdsAt, Bool.and_eq_true, List.all_eq_true] at hc
  have hn := hc.2 _ (Compound.mem_of_id? hv)
  rw [Simple.holdsAt, Bool.and_eq_true] at hn
  exact hn.2

theorem Search.indexed?_eq_some {q : Search} (h : q.tree.WellLinked kids) : q.indexed? c = some n ↔
    (q.options.useIdIndex = true ∧ q.options.limit = some 1 ∧ q.context = .root) ∧
      (∃ v, c.id? = some v ∧ q.lookup v = some n) ∧
      q.tree.Below q.context n ∧ c.holdsAt q.tree n = true := by
  rw [indexed?]
  split_ifs with ha
  · simp only [Bool.and_eq_true, decide_eq_true_eq] at ha
    simp only [Option.bind_eq_some_iff, Option.filter_eq_some_iff, Bool.and_eq_true,
      h.isDescendantOf_iff]
    constructor
    · rintro ⟨v, hv, hl, ⟨-, hb⟩, hc⟩
      exact ⟨⟨ha.1.1, ha.1.2, ha.2⟩, ⟨v, hv, hl⟩, hb, hc⟩
    · rintro ⟨-, ⟨v, hv, hl⟩, hb, hc⟩
      exact ⟨v, hv, hl, ⟨Compound.carriesId_of_holdsAt hv hc, hb⟩, hc⟩
  · simp only [Bool.and_eq_true, decide_eq_true_eq] at ha
    simp only [false_iff]
    exact fun hq => ha ⟨⟨hq.1.1, hq.1.2.1⟩, hq.1.2.2⟩

end

namespace Search

variable {q : Search} {kids : NodeId → List NodeId} {α β : Type} {P : α → Prop} {Q : β → Prop}
  {limit : Option ℕ} {xs left : List NodeId} {into : Found}

/-! ## Remembering -/

/-- What is remembered, if anything, are the elements below the context. -/
def Sound (q : Search) (memo : Memo) : Prop :=
  ∀ nodes ∈ memo, nodes = q.tree.descendants q.context

/-- The value has the property, whatever is remembered, and what is remembered stays sound. -/
def Gives (q : Search) (m : StateM Memo α) (P : α → Prop) : Prop :=
  ∀ memo, q.Sound memo → P (m.run memo).1 ∧ q.Sound (m.run memo).2

theorem Gives.pure {a : α} (ha : P a) : q.Gives (Pure.pure a) P := fun _ hm => ⟨ha, hm⟩

theorem Gives.mono {m : StateM Memo α} {P' : α → Prop} (hm : q.Gives m P) (hP : ∀ a, P a → P' a) :
    q.Gives m P' := fun memo hs => ⟨hP _ (hm memo hs).1, (hm memo hs).2⟩

theorem Gives.bind {m : StateM Memo α} {f : α → StateM Memo β} (hm : q.Gives m P)
    (hf : ∀ a, P a → q.Gives (f a) Q) : q.Gives (m >>= f) Q := fun memo hs =>
  hf _ (hm memo hs).1 _ (hm memo hs).2

/-- **The elements below the context are the same at every time.** -/
theorem gives_scope (q : Search) : q.Gives q.scope (· = q.tree.descendants q.context) := by
  intro memo hs
  rw [scope]
  split_ifs
  · cases memo with
    | none =>
      refine ⟨rfl, fun nodes hn => ?_⟩
      exact (Option.some.inj hn).symm
    | some nodes => exact ⟨hs nodes rfl, hs⟩
  · exact ⟨rfl, hs⟩

/-! ## Lists -/

/-- The nodes listed for the first compound of a chain. -/
def heads (q : Search) (c : Compound) : List NodeId :=
  match q.indexed? c with
  | some n => [n]
  | none => (q.tree.descendants q.context).filter (c.holdsAt q.tree)

theorem heads_of_not_asked {c : Compound} (hi : q.indexed? c = none) :
    q.heads c = (q.tree.descendants q.context).filter (c.holdsAt q.tree) := by
  rw [heads, hi]

/-- The nodes listed for a further compound, by the combinator before it and the nodes on the
left. -/
def next (q : Search) (left : List NodeId) (k : Combinator) (c : Compound) : List NodeId :=
  match k with
  | .descendant =>
    (left.flatMap fun a => (q.tree.descendants a).filter (c.holdsAt q.tree)).eraseDups
  | k => (q.tree.descendants q.context).filter fun n =>
      (k.targets q.tree left).contains n && c.holdsAt q.tree n

/-- The nodes listed at the end of a chain that goes on from the nodes on the left. -/
def along (q : Search) (left : List NodeId) : List (Combinator × Compound) → List NodeId
  | [] => left
  | (k, c) :: rest => q.along (q.next left k c) rest

/-- The nodes listed for an alternative. -/
def listed (q : Search) (a : Alternative) : List NodeId := q.along (q.heads a.head) a.tail

section

variable (h : q.tree.WellLinked kids)

include h

theorem nodup_heads (c : Compound) : (q.heads c).Nodup := by
  rw [heads]
  split
  · exact List.nodup_singleton _
  · exact (h.nodup_descendants _).filter _

theorem nodup_next (left : List NodeId) (k : Combinator) (c : Compound) :
    (q.next left k c).Nodup := by
  cases k with
  | descendant => exact nodup_eraseDups _
  | child => exact (h.nodup_descendants _).filter _
  | adjacentSibling => exact (h.nodup_descendants _).filter _
  | generalSibling => exact (h.nodup_descendants _).filter _

theorem below_of_mem_heads {c : Compound} {n : NodeId} (hn : n ∈ q.heads c) :
    q.tree.Below q.context n := by
  rw [heads] at hn
  split at hn
  · rename_i m hm
    obtain rfl := List.mem_singleton.mp hn
    exact ((indexed?_eq_some h).mp hm).2.2.1
  · exact (h.mem_descendants.mp (List.mem_filter.mp hn).1).2.1

theorem below_of_mem_next (hl : ∀ a ∈ left, q.tree.Below q.context a) {k : Combinator}
    {c : Compound} {n : NodeId} (hn : n ∈ q.next left k c) : q.tree.Below q.context n := by
  have hscope : ∀ {p : NodeId → Bool}, n ∈ (q.tree.descendants q.context).filter p →
      q.tree.Below q.context n := fun hn =>
    (h.mem_descendants.mp (List.mem_filter.mp hn).1).2.1
  cases k with
  | descendant =>
    obtain ⟨a, ha, hn⟩ := List.mem_flatMap.mp (List.mem_eraseDups.mp hn)
    exact (hl a ha).trans (h.mem_descendants.mp (List.mem_filter.mp hn).1).2.1
  | child => exact hscope hn
  | adjacentSibling => exact hscope hn
  | generalSibling => exact hscope hn

/-! ## Steps of a search -/

omit h in
theorem gives_collect (c : Compound) (hi : into.Holds limit xs) (hf : ¬ into.isFull = true) :
    q.Gives (q.collect q.context c into) (·.Holds limit (xs ++ q.heads c)) := by
  rw [collect, if_pos rfl, heads]
  cases q.indexed? c with
  | some n => exact .pure (hi.add hf n)
  | none =>
    refine q.gives_scope.bind fun nodes hn => .pure ?_
    rw [hn]
    exact hi.addWhere _ _

omit h in
theorem gives_collect_of_ne {root : NodeId} (hr : root ≠ q.context) (c : Compound)
    (hi : into.Holds limit xs) : q.Gives (q.collect root c into)
      (·.Holds limit (xs ++ (q.tree.descendants root).filter (c.holdsAt q.tree))) := by
  rw [collect, if_neg hr]
  exact .pure (hi.addWhere _ _)

/-- **Leaving out the subtrees that have been walked loses nothing.** -/
theorem gives_collectBelow (c : Compound) (hl : ∀ a ∈ left, a ≠ q.context)
    {walked : Std.HashSet NodeId} (hi : into.Holds limit xs)
    (hw : ∀ a, walked.contains a = true → (q.tree.descendants a).filter (c.holdsAt q.tree) ⊆ xs) :
    q.Gives (q.collectBelow c left walked into) (·.Holds limit
      (xs ++ left.flatMap fun a => (q.tree.descendants a).filter (c.holdsAt q.tree))) := by
  induction left generalizing xs walked into with
  | nil => exact .pure ((List.append_nil xs).symm ▸ hi)
  | cons a left ih =>
    obtain ⟨hac, hl⟩ := List.forall_mem_cons.mp hl
    rw [collectBelow]
    by_cases hf : into.isFull = true
    · rw [if_pos hf]
      exact .pure (hi.of_full hf _)
    rw [if_neg hf, List.flatMap_cons, ← List.append_assoc]
    by_cases ha : walked.contains a = true
    · rw [if_pos ha]
      refine ih hl (hi.known (hw a ha)) fun b hb => ?_
      exact fun n hn => List.mem_append_left _ (hw b hb hn)
    · rw [if_neg ha]
      refine (gives_collect_of_ne hac c hi).bind fun found hf => ih hl hf fun b hb => ?_
      rw [Std.HashSet.contains_insertMany_list, Bool.or_eq_true, List.contains_iff_mem] at hb
      rcases hb with hb | hb
      · exact fun n hn => List.mem_append_left _ (hw b hb hn)
      -- what lies below a node that has been walked over has been walked over with it
      · intro n hn
        obtain ⟨hbn, hc⟩ := List.mem_filter.mp hn
        rw [h.mem_descendants] at hb hbn
        refine List.mem_append_right _ (List.mem_filter.mpr ⟨?_, hc⟩)
        exact h.mem_descendants.mpr (h.visible_trans hb hbn)

theorem gives_step (hl : ∀ a ∈ left, q.tree.Below q.context a) (k : Combinator) (c : Compound)
    (hi : into.Holds limit xs) :
    q.Gives (q.step left k c into) (·.Holds limit (xs ++ q.next left k c)) := by
  have hscope : ∀ k : Combinator, q.Gives (do
      let targets := k.targets q.tree left
      return into.addWhere (fun n => targets.contains n && c.holdsAt q.tree n) (← q.scope))
      (·.Holds limit (xs ++ (q.tree.descendants q.context).filter fun n =>
        (k.targets q.tree left).contains n && c.holdsAt q.tree n)) := by
    refine fun k => q.gives_scope.bind fun nodes hn => .pure ?_
    rw [hn]
    exact hi.addWhere _ _
  cases k with
  | descendant =>
    -- no node on the left is the context, so that neither index nor memory come into play
    have hne : ∀ a ∈ left, a ≠ q.context := by
      rintro a ha rfl
      exact h.not_below_self (hl _ ha)
    refine (gives_collectBelow h c hne hi fun a ha => ?_).mono fun found hf => hf.congr ?_
    · exact absurd ha (by simp)
    · exact eraseDups_append_right _ _
  | child => exact hscope .child
  | adjacentSibling => exact hscope .adjacentSibling
  | generalSibling => exact hscope .generalSibling

/-! ## Whole searches -/

theorem gives_follow (hl : ∀ a ∈ left, q.tree.Below q.context a) (k : Combinator) (c : Compound)
    (rest : List (Combinator × Compound)) (hi : into.Holds limit xs) :
    q.Gives (q.follow left k c rest into)
      (·.Holds limit (xs ++ q.along left ((k, c) :: rest))) := by
  induction rest generalizing left k c with
  | nil => exact gives_step h hl k c hi
  | cons s rest ih =>
    refine (gives_step h hl k c (Found.holds_upTo none)).bind fun found hf => ?_
    have hnodes : found.nodes.toList = q.next left k c := by
      rw [hf.nodes_of_none rfl, List.nil_append, eraseDups_of_nodup (nodup_next h left k c)]
    rw [hnodes]
    exact ih (fun _ => below_of_mem_next h hl) s.1 s.2

theorem gives_addAlternative (a : Alternative) (hi : into.Holds limit xs)
    (hf : ¬ into.isFull = true) :
    q.Gives (q.addAlternative a into) (·.Holds limit (xs ++ q.listed a)) := by
  obtain ⟨head, tail⟩ := a
  cases tail with
  | nil => exact gives_collect head hi hf
  | cons s rest =>
    have hnone : ¬ (Found.upTo none).isFull = true := Bool.false_ne_true
    refine (gives_collect head (Found.holds_upTo none) hnone).bind fun found hf => ?_
    have hnodes : found.nodes.toList = q.heads head := by
      rw [hf.nodes_of_none rfl, List.nil_append, eraseDups_of_nodup (nodup_heads h head)]
    rw [hnodes]
    exact gives_follow h (fun _ => below_of_mem_heads h) s.1 s.2 rest hi

theorem gives_addAlternatives (as : List Alternative) (hi : into.Holds limit xs) :
    q.Gives (q.addAlternatives as into) (·.Holds limit (xs ++ as.flatMap q.listed)) := by
  induction as generalizing xs into with
  | nil => exact .pure ((List.append_nil xs).symm ▸ hi)
  | cons a as ih =>
    rw [addAlternatives]
    by_cases hf : into.isFull = true
    · rw [if_pos hf]
      exact .pure (hi.of_full hf _)
    · rw [if_neg hf, List.flatMap_cons, ← List.append_assoc]
      exact (gives_addAlternative h a hi hf).bind fun found hf => ih hf

/-- **The answer is made of the lists of the alternatives.** -/
theorem run_toList (s : Selector) :
    (q.run s).toList = atMost q.options.limit (s.alternatives.flatMap q.listed).eraseDups :=
  ((gives_addAlternatives h s.alternatives (Found.holds_upTo _)) none fun _ hn => by
    cases hn).1.nodes_eq

end

end Search

end MarkupQuery
