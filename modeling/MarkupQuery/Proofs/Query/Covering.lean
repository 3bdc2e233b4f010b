import MarkupQuery.Proofs.Query.IdIndex

/-!
# Comparing two searches

One alternative covers another if it can take each step of every chain of the other, be it below
another context or in another tree. It then describes all nodes that the other describes.

* `StepCovered`, `Alternative.Covered`, with **`Alternative.Matches.covered`**;
* **`Selector.all_eq_of_covered`**: alternatives that cover each other have the same answer.
-/

namespace MarkupQuery

/-! ## Chains -/

variable {t t' : Tree} {kids kids' : NodeId → List NodeId} {context context' a n : NodeId}

/-- What the step `s` leads to between visible nodes of `t`, the step `s'` leads to in `t'`. -/
structure StepCovered (t t' : Tree) (context : NodeId) (s s' : Combinator × Compound) : Prop where
  leads : ∀ ⦃a n⦄, t.Visible context a → t.Visible context n → s.1.Leads t a n → s'.1.Leads t' a n
  holds : ∀ ⦃n⦄, s.2.holdsAt t n = true → s'.2.holdsAt t' n = true

/-- Each step of a chain of `alt` is a step of a chain of `alt'`. -/
structure Alternative.Covered (t t' : Tree) (context : NodeId) (alt alt' : Alternative) : Prop where
  head : ∀ ⦃n⦄, alt.head.holdsAt t n = true → alt'.head.holdsAt t' n = true
  tail : List.Forall₂ (StepCovered t t' context) alt.tail alt'.tail

theorem LeadsOn.covered {rest rest' : List (Combinator × Compound)}
    (hv : ∀ ⦃n⦄, t.Visible context n → t'.Visible context' n)
    (hr : List.Forall₂ (StepCovered t t' context) rest rest') (ha : t.Visible context a)
    (hn : LeadsOn t context rest a n) : LeadsOn t' context' rest' a n := by
  induction hr generalizing a with
  | nil => exact hn
  | cons hs hr ih =>
    obtain ⟨b, hk, hb, hc, hbn⟩ := hn
    exact ⟨b, hs.leads ha hb hk, hv hb, hs.holds hc, ih hb hbn⟩

/-- **What an alternative describes is described by each one that covers it.** -/
theorem Alternative.Matches.covered {alt alt' : Alternative}
    (hv : ∀ ⦃n⦄, t.Visible context n → t'.Visible context' n)
    (hc : alt.Covered t t' context alt') (hn : alt.Matches t context n) :
    alt'.Matches t' context' n := by
  obtain ⟨b, hb, hh, hbn⟩ := hn
  exact ⟨b, hv hb, hc.head hh, hbn.covered hv hc.tail hb⟩

theorem Alternative.Covered.refl (t : Tree) (context : NodeId) (alt : Alternative) :
    alt.Covered t t context alt where
  head _ hn := hn
  tail := List.forall₂_same.mpr fun _ _ => ⟨fun _ _ _ _ hk => hk, fun _ hn => hn⟩

/-! ## Answers -/

/-- **Alternatives that cover each other have the same answer.** -/
theorem Selector.all_eq_of_covered {s s' : Selector} (h : t.WellLinked kids)
    (h' : t'.WellLinked kids') (hd : t'.descendants context = t.descendants context)
    (hs : List.Forall₂ (fun alt alt' => alt.Covered t t' context alt' ∧
      alt'.Covered t' t context alt) s.alternatives s'.alternatives) :
    s'.all t' context = s.all t context := by
  classical
  have hv : ∀ n, t'.Visible context n ↔ t.Visible context n := fun n => by
    rw [← h'.mem_descendants, hd, h.mem_descendants]
  have hfilter : ∀ {alt alt' : Alternative}, alt.Covered t t' context alt' →
      alt'.Covered t' t context alt →
      (t.descendants context).filter (alt'.Matches t' context) =
        (t.descendants context).filter (alt.Matches t context) := by
    refine fun hc hc' => List.filter_congr fun n _ => decide_eq_decide.mpr ?_
    exact ⟨fun hn => hn.covered (fun m => (hv m).mp) hc',
      fun hn => hn.covered (fun m => (hv m).mpr) hc⟩
  refine NodeList.toList_injective ?_
  rw [h.all_eq_matches, h'.all_eq_matches, hd]
  refine congrArg List.eraseDups ?_
  generalize s.alternatives = alts, s'.alternatives = alts' at hs
  induction hs with
  | nil => rfl
  | cons hc _ ih => rw [List.flatMap_cons, List.flatMap_cons, ih, hfilter hc.1 hc.2]

end MarkupQuery
