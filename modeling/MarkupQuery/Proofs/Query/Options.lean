import MarkupQuery.Proofs.Query.IdIndex

/-!
# Options

What a search lists for an alternative depends on its options only through the id index. The memory
of the elements below the context is therefore never seen in an answer, and a limit is seen only in
that the answer is cut, wherever the index is not asked.

* `Search.along_congr`, **`Search.listed_congr`**: searches of one tree from one context that get the
  same nodes from the index list the same;
* `Search.indexed?_eq_none`: when the index is not asked;
* **`Search.run_toList_eq_atMost`**, **`Selector.select_toList_eq_take`**: a limit cuts the answer;
* **`Search.run_eq_run_of_cache`**: remembering the elements below the context changes no answer.
-/

namespace MarkupQuery

namespace Search

variable {t : Tree} {kids : NodeId → List NodeId} {context : NodeId}
  {lookup lookup' : String → Option NodeId} {options options' : QueryOptions}

/-! ## Lists -/

theorem along_congr (left : List NodeId) (rest : List (Combinator × Compound)) :
    along ⟨t, context, lookup', options'⟩ left rest =
      along ⟨t, context, lookup, options⟩ left rest := by
  induction rest generalizing left with
  | nil => rfl
  | cons s rest ih =>
    obtain ⟨k, c⟩ := s
    have hnext : next ⟨t, context, lookup', options'⟩ left k c =
        next ⟨t, context, lookup, options⟩ left k c := by
      cases k <;> rfl
    rw [along, along, hnext]
    exact ih _

theorem listed_congr (hi : ∀ c, indexed? ⟨t, context, lookup', options'⟩ c =
      indexed? ⟨t, context, lookup, options⟩ c) :
    listed ⟨t, context, lookup', options'⟩ = listed ⟨t, context, lookup, options⟩ := by
  funext a
  have hheads : heads ⟨t, context, lookup', options'⟩ a.head =
      heads ⟨t, context, lookup, options⟩ a.head := by
    unfold heads
    rw [hi]
  unfold listed
  rw [hheads]
  exact along_congr _ _

/-! ## Limits -/

theorem indexed?_eq_none (hi : options.useIdIndex = false ∨ options.limit ≠ some 1 ∨
      context ≠ .root) (c : Compound) : indexed? ⟨t, context, lookup, options⟩ c = none := by
  unfold indexed?
  rw [if_neg]
  intro hasked
  simp only [Bool.and_eq_true, decide_eq_true_eq] at hasked
  obtain ⟨⟨hflag, hlimit⟩, hroot⟩ := hasked
  rcases hi with h | h | h
  · rw [hflag] at h
    cases h
  · exact h hlimit
  · exact h hroot

/-- **A limit cuts the answer**, if the index is not asked. -/
theorem run_toList_eq_atMost (h : t.WellLinked kids) (hi : options.useIdIndex = false ∨
      options.limit ≠ some 1 ∨ context ≠ .root) (s : Selector) :
    (run ⟨t, context, lookup, options⟩ s).toList =
      atMost options.limit (run ⟨t, context, lookup, { options with limit := none }⟩ s).toList := by
  have hlisted : listed ⟨t, context, lookup, { options with limit := none }⟩ =
      listed ⟨t, context, lookup, options⟩ := by
    refine listed_congr fun c => ?_
    rw [indexed?_eq_none hi, indexed?_eq_none (.inr (.inl (by simp)))]
  rw [run_toList h, run_toList h, hlisted]
  rfl

end Search

/-- **The answer under a limit is the beginning of the whole answer.** -/
theorem Selector.select_toList_eq_take (changes : List Change) (s : Selector) (context : NodeId)
    (k : ℕ) (useIdIndex cacheDescendants : Bool)
    (hi : useIdIndex = false ∨ k ≠ 1 ∨ context ≠ .root) :
    let all := s.select (Tree.after changes) context
      { limit := none, useIdIndex, cacheDescendants }
    let first := s.select (Tree.after changes) context
      { limit := some k, useIdIndex, cacheDescendants }
    first.toList = all.toList.take k ∧ first.length = min k all.length := by
  intro all first
  obtain ⟨kids, h⟩ := Tree.wellLinked_after changes
  have hcut : first.toList = all.toList.take k := by
    refine Search.run_toList_eq_atMost h ?_ s
    rcases hi with hi | hi | hi
    · exact .inl hi
    · exact .inr (.inl fun e => hi (Option.some.inj e))
    · exact .inr (.inr hi)
  have hlength : ∀ l : NodeList, l.length = l.toList.length := fun l => Array.length_toList.symm
  refine ⟨hcut, ?_⟩
  rw [hlength, hlength, hcut, List.length_take]

theorem Selector.select_toList_eq_take_first_item :
    let changes := [.createElement "ul", .createElement "li", .createElement "li",
      .insert .root (.slot 1) none, .insert (.slot 1) (.slot 2) none,
      .insert (.slot 1) (.slot 3) none, .setAttribute (.slot 2) "id" "x"]
    let s : Selector := ⟨⟨⟨[.id "x"]⟩, []⟩, [⟨⟨[.tag "li"]⟩, []⟩, ⟨⟨[.universal]⟩, []⟩]⟩
    let all := s.select (Tree.after changes) (.slot 1) { limit := none }
    let first := s.select (Tree.after changes) (.slot 1) { limit := some 1 }
    (true = false ∨ 1 ≠ 1 ∨ NodeId.slot 1 ≠ .root) ∧
      first.toList = all.toList.take 1 ∧ first.length = min 1 all.length := by
  intro changes s all first
  have hi : true = false ∨ 1 ≠ 1 ∨ NodeId.slot 1 ≠ .root := by decide
  exact ⟨hi, Selector.select_toList_eq_take changes s (.slot 1) 1 true true hi⟩

/-! ## Memory -/

/-- **Remembering the elements below the context changes no answer.** -/
theorem Search.run_eq_run_of_cache (changes : List Change) (lookup : String → Option NodeId)
    (context : NodeId) (limit : Option ℕ) (useIdIndex : Bool) (s : Selector) :
    Search.run ⟨Tree.after changes, context, lookup,
      { limit, useIdIndex, cacheDescendants := true }⟩ s =
    Search.run ⟨Tree.after changes, context, lookup,
      { limit, useIdIndex, cacheDescendants := false }⟩ s := by
  obtain ⟨kids, h⟩ := Tree.wellLinked_after changes
  have hlisted : listed ⟨Tree.after changes, context, lookup,
        { limit, useIdIndex, cacheDescendants := true }⟩ =
      listed ⟨Tree.after changes, context, lookup,
        { limit, useIdIndex, cacheDescendants := false }⟩ :=
    -- the index is asked under the same conditions
    listed_congr fun _ => rfl
  apply NodeList.toList_injective
  rw [run_toList h, run_toList h, hlisted]

end MarkupQuery
