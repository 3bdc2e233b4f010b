import MarkupQuery.Proofs.Selector.Pattern

/-!
# Canonical texts

A selector is printed with one blank for the combinator that has no symbol, one on either side of a
symbol, and none anywhere else where one could stand. The text is one of its written forms, so that
reading it gives the selector back, and nothing in it runs together.

* `Combinator.renders_text`, `Alternative.renders_text`, **`Selector.renders_text`**: the text is a
  written form;
* **`Selector.parse_text`**: reading undoes printing;
* **`Selector.parse_text_spec`**: the same for the selectors that are read, and which texts are read
  alike.
-/

namespace MarkupQuery

theorem blanks_nil : Blanks [] := fun _ hc => absurd hc List.not_mem_nil

theorem blanks_space : Blanks [' '] := List.forall_mem_singleton.mpr (by decide)

theorem Combinator.renders_text (k : Combinator) :
    (Separator.combinator k).Renders k.text.toList := by
  cases k with
  | descendant => exact ⟨blanks_space, List.cons_ne_nil _ _⟩
  | child => exact ⟨[' '], [' '], blanks_space, blanks_space, rfl⟩
  | adjacentSibling => exact ⟨[' '], [' '], blanks_space, blanks_space, rfl⟩
  | generalSibling => exact ⟨[' '], [' '], blanks_space, blanks_space, rfl⟩

theorem Alternative.renders_text (a : Alternative) : a.Renders a.text.toList := by
  obtain ⟨d, tail⟩ := a
  refine ⟨_, ?_, String.toList_append⟩
  rw [String.toList_join]
  dsimp only
  induction tail with
  | nil => rfl
  | cons s tail ih =>
    refine ⟨s.1.text.toList, _, s.1.renders_text, ih, ?_⟩
    rw [List.map_cons, List.flatMap_cons, String.toList_append, List.append_assoc]

/-- **The text of a selector is one of its written forms.** -/
theorem Selector.renders_text (s : Selector) : s.Renders s.text.toList := by
  obtain ⟨a, as⟩ := s
  unfold text alternatives
  rw [String.toList_intercalate]
  induction as generalizing a with
  | nil => exact ⟨_, [], a.renders_text, rfl, by simp⟩
  | cons b as ih =>
    obtain ⟨v, x, hv, hx, he⟩ := ih b
    have hcomma : Separator.comma.Renders ", ".toList :=
      ⟨[], [' '], blanks_nil, blanks_space, rfl⟩
    refine ⟨_, _, a.renders_text, ⟨_, v, x, hcomma, hv, hx, rfl⟩, ?_⟩
    simp only [List.map_cons] at he ⊢
    rw [List.intercalate_cons_cons, he, List.append_assoc]

/-- **Reading undoes printing.** -/
theorem Selector.parse_text {s : Selector} (hs : s.WellFormed) : Selector.parse s.text = .ok s := by
  have hspells : s.Spells s.text :=
    ⟨[], _, [], blanks_nil, s.renders_text, blanks_nil, by simp⟩
  exact Selector.parse_eq_ok.mpr (Selector.read?_trim.mpr ⟨hs, hspells⟩)

theorem Selector.wellFormed_of_parse {s : Selector} {text : String}
    (h : Selector.parse text = .ok s) : s.WellFormed :=
  (Selector.read?_trim.mp (Selector.parse_eq_ok.mp h)).1

/-- **The text of a selector is in the grammar, and is read as that selector.** -/
theorem Selector.parse_text_spec :
    (∀ text s, Selector.parse text = .ok s →
      Selector.expression.Matches s.text.toList ∧ Selector.parse s.text = .ok s) ∧
    ∀ a b s s', Selector.parse a = .ok s → Selector.parse b = .ok s' →
      (Selector.parse a = Selector.parse b ↔ s.text = s'.text) := by
  constructor
  · intro text s h
    have hs := Selector.wellFormed_of_parse h
    exact ⟨Selector.matches_expression.mpr ⟨s, hs, s.renders_text⟩, Selector.parse_text hs⟩
  · intro a b s s' ha hb
    constructor
    · intro hab
      have he : s = s' := Except.ok.inj (ha.symm.trans (hab.trans hb))
      rw [he]
    · intro htext
      -- both are what the one text is read as
      calc Selector.parse a = .ok s := ha
        _ = Selector.parse s.text := (Selector.parse_text (Selector.wellFormed_of_parse ha)).symm
        _ = Selector.parse s'.text := by rw [htext]
        _ = .ok s' := Selector.parse_text (Selector.wellFormed_of_parse hb)
        _ = Selector.parse b := hb.symm

theorem Selector.parse_text_spec_child_descendant :
    let s : Selector := ⟨⟨⟨[.tag "div"]⟩, [(.child, ⟨[.tag "p"]⟩)]⟩, [⟨⟨[.id "x"]⟩, []⟩]⟩
    let s' : Selector := ⟨⟨⟨[.tag "div"]⟩, [(.descendant, ⟨[.tag "p"]⟩)]⟩, [⟨⟨[.id "x"]⟩, []⟩]⟩
    Selector.parse "div>p ,\t#x" = .ok s ∧ Selector.parse "\ndiv  p,#x" = .ok s' ∧
      (Selector.expression.Matches s.text.toList ∧ Selector.parse s.text = .ok s) ∧
      (Selector.parse "div>p ,\t#x" = Selector.parse "\ndiv  p,#x" ↔ s.text = s'.text) := by
  intro s s'
  have ha : Selector.parse "div>p ,\t#x" = .ok s := by decide +kernel
  have hb : Selector.parse "\ndiv  p,#x" = .ok s' := by decide +kernel
  exact ⟨ha, hb, Selector.parse_text_spec.1 _ s ha, Selector.parse_text_spec.2 _ _ s s' ha hb⟩

end MarkupQuery
