import Mathlib.Data.List.Chain
import MarkupQuery.Proofs.Selector.Recognize
import MarkupQuery.Selector.Parse

/-!
# The grammar of selectors

Which selectors can be written, and in which ways. The parts of a compound stand side by side; blanks
may stand around each symbol between compounds, and stand for the combinator that has no symbol.

* `Simple.MayFollow`, `Compound.WellFormed`, `Selector.WellFormed`: selectors that can be written;
* `Blanks`, `Separator.Renders`: what stands between two compounds;
* `Alternative.Renders`, `Selector.Renders`: the written forms of a selector;
* `RendersLinks`: the same, one separator and compound after the other, with
  **`Selector.renders_ofLinks`**.
-/

namespace MarkupQuery

/-! ## Selectors that can be written -/

/-- The second may stand right behind the first in a compound: it is of a kind that does not only
lead, and two runs of classes would be one. -/
def Simple.MayFollow (a b : Simple) : Prop :=
  b.kind.leadsCompound = false ∧ ¬ (a.kind = .classes ∧ b.kind = .classes)

theorem Simple.not_leads_of_chain {p : Simple} {parts : List Simple}
    (h : (p :: parts).IsChain MayFollow) : ∀ q ∈ parts, q.kind.leadsCompound = false := by
  induction parts generalizing p with
  | nil => exact fun q hq => absurd hq List.not_mem_nil
  | cons r parts ih =>
    obtain ⟨hr, h⟩ := List.isChain_cons_cons.mp h
    exact List.forall_mem_cons.mpr ⟨hr.1, ih h⟩

/-- A compound that can be written. -/
structure Compound.WellFormed (c : Compound) : Prop where
  ne_nil : c.parts ≠ []
  parts : ∀ p ∈ c.parts, p.WellFormed
  follow : c.parts.IsChain Simple.MayFollow

/-- An alternative that can be written. -/
def Alternative.WellFormed (a : Alternative) : Prop :=
  a.head.WellFormed ∧ ∀ s ∈ a.tail, s.2.WellFormed

/-- A selector that can be written. -/
def Selector.WellFormed (s : Selector) : Prop := ∀ a ∈ s.alternatives, a.WellFormed

/-! ## Written forms -/

/-- Nothing but white space. -/
def Blanks (w : List Char) : Prop := ∀ c ∈ w, isBlank c = true

/-- The symbol of a separator; the one that is written as blanks has none. -/
def Separator.symbol? : Separator → Option Char
  | comma => some ','
  | combinator k => k.symbol?

/-- A written form of a separator: its symbol with any blanks around it, or one or more blanks. -/
def Separator.Renders (sep : Separator) (w : List Char) : Prop :=
  match sep.symbol? with
  | some c => ∃ u v, Blanks u ∧ Blanks v ∧ w = u ++ c :: v
  | none => Blanks w ∧ w ≠ []

/-- A written form of the rest of a chain. -/
def RendersTail : List (Combinator × Compound) → List Char → Prop
  | [], w => w = []
  | (k, c) :: tail, w => ∃ u v, (Separator.combinator k).Renders u ∧ RendersTail tail v ∧
      w = u ++ (c.text.toList ++ v)

/-- A written form of an alternative. -/
def Alternative.Renders (a : Alternative) (w : List Char) : Prop :=
  ∃ v, RendersTail a.tail v ∧ w = a.head.text.toList ++ v

/-- A written form of further alternatives. -/
def RendersMore : List Alternative → List Char → Prop
  | [], w => w = []
  | a :: as, w => ∃ u v x, Separator.comma.Renders u ∧ a.Renders v ∧ RendersMore as x ∧
      w = u ++ (v ++ x)

/-- A written form of a selector. -/
def Selector.Renders (s : Selector) (w : List Char) : Prop :=
  ∃ v x, s.head.Renders v ∧ RendersMore s.tail x ∧ w = v ++ x

/-! ## Compounds and links -/

/-- A written form of separators, each with the compound behind it. -/
def RendersLinks : List (Separator × Compound) → List Char → Prop
  | [], w => w = []
  | (sep, c) :: links, w => ∃ u v, sep.Renders u ∧ RendersLinks links v ∧
      w = u ++ (c.text.toList ++ v)

namespace Selector

variable {c : Compound} {links : List (Separator × Compound)} {w : List Char}

theorem exists_ofLinks (s : Selector) : ∃ links, ofLinks s.head.head links = s := by
  obtain ⟨⟨c, tail⟩, as⟩ := s
  -- a chain is taken apart first, then the list of alternatives
  induction as generalizing c tail with
  | nil =>
    induction tail generalizing c with
    | nil => exact ⟨[], rfl⟩
    | cons s tail ih =>
      obtain ⟨links, h⟩ := ih s.2
      refine ⟨(.combinator s.1, s.2) :: links, ?_⟩
      simp only [ofLinks, show ofLinks s.2 links = _ from h]
      rfl
  | cons a as ih =>
    induction tail generalizing c with
    | nil =>
      obtain ⟨links, h⟩ := ih a.head a.tail
      refine ⟨(.comma, a.head) :: links, ?_⟩
      simp only [ofLinks, show ofLinks a.head links = _ from h]
      rfl
    | cons s tail ih' =>
      obtain ⟨links, h⟩ := ih' s.2
      refine ⟨(.combinator s.1, s.2) :: links, ?_⟩
      simp only [ofLinks, show ofLinks s.2 links = _ from h]
      rfl

theorem wellFormed_ofLinks :
    (ofLinks c links).WellFormed ↔ c.WellFormed ∧ ∀ l ∈ links, l.2.WellFormed := by
  induction links generalizing c with
  | nil => simp [ofLinks, WellFormed, alternatives, Alternative.WellFormed]
  | cons l links ih =>
    obtain ⟨sep, d⟩ := l
    rw [List.forall_mem_cons, ← ih]
    cases sep with
    | comma => simp [ofLinks, WellFormed, alternatives, Alternative.WellFormed]
    | combinator k =>
      simp only [ofLinks, WellFormed, alternatives, Alternative.WellFormed, Alternative.cons,
        List.forall_mem_cons, and_assoc]

/-- **A written form is that of a compound, and then those of the links.** -/
theorem renders_ofLinks :
    (ofLinks c links).Renders w ↔ ∃ v, RendersLinks links v ∧ w = c.text.toList ++ v := by
  induction links generalizing c w with
  | nil => simp [ofLinks, Renders, Alternative.Renders, RendersTail, RendersMore, RendersLinks]
  | cons l links ih =>
    obtain ⟨sep, d⟩ := l
    cases sep with
    | comma =>
      have key : ∀ x, RendersMore (ofLinks d links).alternatives x ↔
          RendersLinks ((.comma, d) :: links) x := by
        intro x
        simp only [alternatives, RendersMore, RendersLinks]
        constructor
        · rintro ⟨u, v, y, hu, hv, hy, rfl⟩
          obtain ⟨z, hz, he⟩ := ih.mp ⟨v, y, hv, hy, rfl⟩
          exact ⟨u, z, hu, hz, by rw [he]⟩
        · rintro ⟨u, z, hu, hz, rfl⟩
          obtain ⟨v, y, hv, hy, he⟩ := ih.mpr ⟨z, hz, rfl⟩
          exact ⟨u, v, y, hu, hv, hy, by rw [he]⟩
      simp only [ofLinks, Renders, Alternative.Renders, RendersTail, key]
      constructor
      · rintro ⟨v, x, ⟨y, rfl, rfl⟩, hx, rfl⟩
        exact ⟨x, hx, by rw [List.append_nil]⟩
      · rintro ⟨x, hx, rfl⟩
        exact ⟨_, x, ⟨[], rfl, rfl⟩, hx, by rw [List.append_nil]⟩
    | combinator k =>
      simp only [ofLinks, Renders, Alternative.Renders, Alternative.cons, RendersTail, RendersLinks]
      constructor
      · rintro ⟨v, x, ⟨y, ⟨u, z, hu, hz, rfl⟩, rfl⟩, hx, rfl⟩
        obtain ⟨t, ht, he⟩ := ih.mp ⟨_, x, ⟨z, hz, rfl⟩, hx, rfl⟩
        exact ⟨_, ⟨u, t, hu, ht, rfl⟩, by rw [← he]; simp⟩
      · rintro ⟨v, ⟨u, t, hu, ht, rfl⟩, rfl⟩
        obtain ⟨y, x, ⟨z, hz, rfl⟩, hx, he⟩ := ih.mpr ⟨t, ht, rfl⟩
        exact ⟨_, x, ⟨_, ⟨u, z, hu, hz, rfl⟩, rfl⟩, hx, by rw [he]; simp⟩

end Selector

end MarkupQuery
