import MarkupQuery.Proofs.Query.IdIndex

/-!
# Matching backward

Whether a selector describes a node can be seen from the node itself: its last compound is tried on
the node, the one before on the nodes that the combinator between them leads back to, and so on. The
links to parents and to previous siblings are enough for that.

* `Combinator.LeadsBack`, `BackFrom`, `Alternative.MatchesBack`: the way back;
* `WellLinked.upTo_trans_iff`, `WellLinked.prevTo_iff`: links back are links forward reversed;
* **`WellLinked.leadsBack_iff`**: a step back is a step forward from below the top;
* **`WellLinked.matches_iff_back`**: a chain leads forward to the nodes from which it leads back;
* **`Selector.describes_iff_back`**: what a selector describes, seen from the node.
-/

namespace MarkupQuery

open Relation

/-! ## The way back -/

/-- The parent of `n` is `a`. -/
def Tree.UpTo (t : Tree) (n a : NodeId) : Prop := t.parent n = a ∧ a ≠ .null

/-- The sibling right before `n` is `a`. -/
def Tree.PrevTo (t : Tree) (n a : NodeId) : Prop := t.prevSibling n = a ∧ a ≠ .null

/-- The combinator leads back from `n` to `a`. The top itself is not led to. -/
def Combinator.LeadsBack (t : Tree) (top : NodeId) : Combinator → NodeId → NodeId → Prop
  | descendant, n, a => TransGen t.UpTo n a ∧ a ≠ top
  | child, n, a => t.UpTo n a ∧ a ≠ top
  | adjacentSibling, n, a => t.PrevTo n a
  | generalSibling, n, a => TransGen t.PrevTo n a

/-- A chain leads back from `n`. It is given by its first compound and by the others from the last
one on, each with the combinator before it. -/
def BackFrom (t : Tree) (top : NodeId) (first : Compound) :
    List (Combinator × Compound) → NodeId → Prop
  | [], n => first.holdsAt t n = true
  | (k, c) :: earlier, n => c.holdsAt t n = true ∧
      ∃ a, k.LeadsBack t top n a ∧ BackFrom t top first earlier a

/-- The alternative leads back from `n`. -/
def Alternative.MatchesBack (t : Tree) (top : NodeId) (a : Alternative) (n : NodeId) : Prop :=
  BackFrom t top a.head a.tail.reverse n

variable {t : Tree} {kids : NodeId → List NodeId} {a b n : NodeId}

theorem BackFrom.isElement {top : NodeId} {first : Compound}
    {earlier : List (Combinator × Compound)} (h : BackFrom t top first earlier n) :
    t.isElement n = true := by
  cases earlier with
  | nil => exact Compound.isElement_of_holdsAt h
  | cons s earlier => exact Compound.isElement_of_holdsAt h.1

namespace Tree.WellLinked

variable (h : t.WellLinked kids)

include h

/-! ## Steps -/

theorem upTo_iff : t.UpTo n a ↔ t.HasChild a n := h.hasChild_iff.symm

theorem upTo_eq : t.UpTo = Function.swap t.HasChild := by
  funext n a
  exact propext h.upTo_iff

theorem upTo_trans_iff : TransGen t.UpTo n a ↔ t.Below a n := by
  rw [h.upTo_eq, transGen_swap]
  rfl

theorem prevTo_iff : t.PrevTo n a ↔ t.NextTo a n := by
  have hpair : ∀ {p l₁ l₂}, kids p = l₁ ++ a :: n :: l₂ → a ≠ .null ∧ n ≠ .null := by
    intro p l₁ l₂ hk
    exact ⟨h.forest.ne_null (p := p) (by simp [hk]), h.forest.ne_null (p := p) (by simp [hk])⟩
  constructor
  · rintro ⟨hprev, ha⟩
    obtain ⟨p, l₁, l₂, hk⟩ := (h.forest.prevSibling_eq_iff ha).mp hprev
    exact ⟨(h.forest.nextSibling_eq_iff (hpair hk).2).mpr ⟨p, l₁, l₂, hk⟩, (hpair hk).2⟩
  · rintro ⟨hnext, hn⟩
    obtain ⟨p, l₁, l₂, hk⟩ := (h.forest.nextSibling_eq_iff hn).mp hnext
    exact ⟨(h.forest.prevSibling_eq_iff (hpair hk).1).mpr ⟨p, l₁, l₂, hk⟩, (hpair hk).1⟩

theorem prevTo_trans_iff : TransGen t.PrevTo n a ↔ TransGen t.NextTo a n := by
  have hswap : t.PrevTo = Function.swap t.NextTo := by
    funext n a
    exact propext h.prevTo_iff
  rw [hswap, transGen_swap]

theorem leadsBack_iff {top : NodeId} (htop : t.parent top = .null) (hn : t.Below top n)
    {k : Combinator} : k.LeadsBack t top n a ↔ k.Leads t a n ∧ t.Below top a := by
  have habove : t.Below a n → (a ≠ top ↔ t.Below top a) := fun ha =>
    (h.below_iff_ne_top htop hn ha).symm
  have hbeside : TransGen t.NextTo a n → t.Below top a := fun ha =>
    (h.below_iff_of_nextTo ha).mpr hn
  cases k with
  | descendant =>
    exact (and_congr_left' h.upTo_trans_iff).trans (and_congr_right habove)
  | child =>
    exact (and_congr_left' h.upTo_iff).trans (and_congr_right fun ha => habove (.single ha))
  | adjacentSibling =>
    exact h.prevTo_iff.trans (and_iff_left_of_imp fun ha => hbeside (.single ha)).symm
  | generalSibling =>
    exact h.prevTo_trans_iff.trans (and_iff_left_of_imp hbeside).symm

/-! ## Chains -/

omit h in
theorem leadsOn_concat {context : NodeId} {rest : List (Combinator × Compound)} {k : Combinator}
    {c : Compound} : LeadsOn t context (rest ++ [(k, c)]) b n ↔
      ∃ a, LeadsOn t context rest b a ∧ k.Leads t a n ∧ t.Visible context n ∧
        c.holdsAt t n = true := by
  induction rest generalizing b with
  | nil =>
    constructor
    · rintro ⟨x, hx, hv, hc, rfl⟩
      exact ⟨b, rfl, hx, hv, hc⟩
    · rintro ⟨a, rfl, hx, hv, hc⟩
      exact ⟨n, hx, hv, hc, rfl⟩
  | cons s rest ih =>
    constructor
    · rintro ⟨x, hx, hv, hc, hxn⟩
      obtain ⟨a, hxa, ha⟩ := ih.mp hxn
      exact ⟨a, ⟨x, hx, hv, hc, hxa⟩, ha⟩
    · rintro ⟨a, ⟨x, hx, hv, hc, hxa⟩, ha⟩
      exact ⟨x, hx, hv, hc, ih.mpr ⟨a, hxa, ha⟩⟩

/-- **A chain leads forward to the nodes from which it leads back.** -/
theorem matches_iff_back {top : NodeId} (htop : t.parent top = .null) (alt : Alternative) :
    alt.Matches t top n ↔ t.Visible top n ∧ alt.MatchesBack t top n := by
  obtain ⟨first, tail⟩ := alt
  unfold Alternative.MatchesBack
  -- the way back begins at the end of the chain
  induction tail using List.reverseRecOn generalizing n with
  | nil =>
    constructor
    · rintro ⟨b, hv, hb, rfl⟩
      exact ⟨hv, hb⟩
    · rintro ⟨hv, hb⟩
      exact ⟨n, hv, hb, rfl⟩
  | append_singleton tail s ih =>
    obtain ⟨k, c⟩ := s
    rw [List.reverse_concat]
    constructor
    · rintro ⟨b, hv, hb, hbn⟩
      obtain ⟨a, hba, hk, hn, hc⟩ := leadsOn_concat.mp hbn
      obtain ⟨ha, hback⟩ := ih.mp ⟨b, hv, hb, hba⟩
      exact ⟨hn, hc, a, (h.leadsBack_iff htop hn.2.1).mpr ⟨hk, ha.2.1⟩, hback⟩
    · rintro ⟨hn, hc, a, hk, hback⟩
      obtain ⟨hk, hbelow⟩ := (h.leadsBack_iff htop hn.2.1).mp hk
      have ha : t.Visible top a := h.visible_of_leads hk hn hback.isElement hbelow
      obtain ⟨b, hv, hb, hba⟩ := ih.mpr ⟨ha, hback⟩
      exact ⟨b, hv, hb, leadsOn_concat.mpr ⟨a, hba, hk, hn, hc⟩⟩

/-! ## Selectors -/

theorem visible_top_iff : t.Visible (t.top n) n ↔ t.isElement n = true ∧ n ≠ t.top n ∧
    ∀ a, TransGen t.UpTo n a → a ≠ t.top n → t.isElement a = true := by
  obtain ⟨htop, hup⟩ := h.top_spec n
  have hbelow : t.Below (t.top n) n ↔ n ≠ t.top n := by
    constructor
    · intro hn e
      have hp := (h.below_iff.mp hn).1
      rw [e] at hp
      exact hp htop
    · exact (reflTransGen_iff_eq_or_transGen.mp hup).resolve_left
  unfold Visible
  rw [hbelow]
  refine and_congr_right fun _ => and_congr_right fun hn => forall_congr' fun a => ?_
  rw [h.upTo_trans_iff]
  constructor
  · intro hall ha hne
    exact hall ((h.below_iff_ne_top htop (hbelow.mpr hn) ha).mpr hne) ha
  · intro hall hta ha
    exact hall ha ((h.below_iff_ne_top htop (hbelow.mpr hn) ha).mp hta)

theorem contains_all {context : NodeId} (s : Selector) :
    (s.all t context).contains n = true ↔ ∃ a ∈ s.alternatives, a.Matches t context n := by
  rw [← h.mem_all, NodeList.contains, ← Array.contains_toList, List.contains_iff_mem,
    NodeList.toList]

end Tree.WellLinked

/-- **A selector describes the nodes from which an alternative leads back**, if they are visible
from the top. -/
theorem Selector.describes_iff_back (changes : List Change) (s : Selector) (n : NodeId) :
    let t := Tree.after changes
    (t.parent (t.top n) = .null ∧ ReflTransGen t.UpTo n (t.top n)) ∧
      (s.describes t n = true ↔
        t.isElement n = true ∧ n ≠ t.top n ∧
          (∀ a, TransGen t.UpTo n a → a ≠ t.top n → t.isElement a = true) ∧
          ∃ alt ∈ s.alternatives, alt.MatchesBack t (t.top n) n) := by
  intro t
  obtain ⟨kids, h⟩ : ∃ kids, t.WellLinked kids := Tree.wellLinked_after changes
  obtain ⟨htop, hup⟩ := h.top_spec n
  refine ⟨⟨htop, ?_⟩, ?_⟩
  · rw [h.upTo_eq, reflTransGen_swap]
    exact hup
  · have hvisible := h.visible_top_iff (n := n)
    rw [Selector.describes, Bool.and_eq_true, h.contains_all]
    constructor
    · rintro ⟨-, alt, ha, hm⟩
      obtain ⟨hv, hback⟩ := (h.matches_iff_back htop alt).mp hm
      obtain ⟨he, hne, hbetween⟩ := hvisible.mp hv
      exact ⟨he, hne, hbetween, alt, ha, hback⟩
    · rintro ⟨he, hne, hbetween, alt, ha, hback⟩
      have hv := hvisible.mpr ⟨he, hne, hbetween⟩
      exact ⟨he, alt, ha, (h.matches_iff_back htop alt).mpr ⟨hv, hback⟩⟩

end MarkupQuery
