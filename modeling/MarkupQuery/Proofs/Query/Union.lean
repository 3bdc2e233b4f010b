import MarkupQuery.Proofs.Query.First
import MarkupQuery.Proofs.Selector.Text

/-!
# Commas

Two selectors with a comma between them make one selector, with the alternatives of both. It answers
what the first one answers, and then what the second one adds.

* `Selector.append`: the alternatives of two selectors, with `Selector.WellFormed.append`;
* `RendersMore.append`, `Selector.Renders.append`, **`Selector.Spells.append`**: two written forms
  and a comma make a written form;
* **`Selector.parse_append`**, `Selector.matches_append`: how such a text is read;
* **`Search.run_append`**: what the selector answers;
* **`Tree.queryAll_append`**: the same of texts.
-/

namespace MarkupQuery

/-! ## Written forms -/

theorem Separator.renders_comma {u v : List Char} (hu : Blanks u) (hv : Blanks v) :
    comma.Renders (u ++ ',' :: v) := ⟨u, v, hu, hv, rfl⟩

theorem RendersMore.append {as bs : List Alternative} {v w : List Char} (ha : RendersMore as v)
    (hb : RendersMore bs w) : RendersMore (as ++ bs) (v ++ w) := by
  induction as generalizing v with
  | nil =>
    obtain rfl : v = [] := ha
    exact hb
  | cons a as ih =>
    obtain ⟨u, x, y, hu, hx, hy, rfl⟩ := ha
    refine ⟨u, x, y ++ w, hu, hx, ih hy, ?_⟩
    simp only [List.append_assoc]

namespace Selector

variable {s s' : Selector}

/-- The alternatives of one selector and then those of another. -/
def append (s s' : Selector) : Selector := ⟨s.head, s.tail ++ s'.alternatives⟩

theorem alternatives_append (s s' : Selector) :
    (s.append s').alternatives = s.alternatives ++ s'.alternatives := rfl

theorem WellFormed.append (hs : s.WellFormed) (hs' : s'.WellFormed) :
    (s.append s').WellFormed := by
  unfold WellFormed
  rw [alternatives_append]
  exact List.forall_mem_append.mpr ⟨hs, hs'⟩

theorem Renders.append {u v w : List Char} (hs : s.Renders v) (hu : Separator.comma.Renders u)
    (hs' : s'.Renders w) : (s.append s').Renders (v ++ (u ++ w)) := by
  obtain ⟨x, y, hx, hy, rfl⟩ := hs
  obtain ⟨x', y', hx', hy', rfl⟩ := hs'
  have hmore : RendersMore s'.alternatives (u ++ (x' ++ y')) := ⟨u, x', y', hu, hx', hy', rfl⟩
  refine ⟨x, y ++ (u ++ (x' ++ y')), hx, hy.append hmore, ?_⟩
  rw [List.append_assoc]

/-- **Two texts with a comma between them spell both selectors together.** -/
theorem Spells.append {a b : String} (ha : s.Spells a) (hb : s'.Spells b) :
    (s.append s').Spells (a ++ "," ++ b) := by
  obtain ⟨u, w, v, hu, hw, hv, ha⟩ := ha
  obtain ⟨u', w', v', hu', hw', hv', hb⟩ := hb
  refine ⟨u, _, v', hu, hw.append (Separator.renders_comma hv hu') hw', hv', ?_⟩
  rw [String.toList_append, String.toList_append, ha, hb]
  simp

/-! ## Reading -/

theorem parse_append {a b : String} (ha : parse a = .ok s) (hb : parse b = .ok s') :
    parse (a ++ "," ++ b) = .ok (s.append s') := by
  rw [parse_eq_ok, read?_trim] at ha hb ⊢
  exact ⟨ha.1.append hb.1, ha.2.append hb.2⟩

theorem matches_append {a b : String} (ha : expression.Matches a.toList)
    (hb : expression.Matches b.toList) : expression.Matches (a ++ "," ++ b).toList := by
  obtain ⟨s, hs, ha⟩ := matches_expression.mp ha
  obtain ⟨s', hs', hb⟩ := matches_expression.mp hb
  refine matches_expression.mpr ⟨s.append s', hs.append hs', ?_⟩
  have hcomma := Separator.renders_comma blanks_nil blanks_nil
  have he : (a ++ "," ++ b).toList = a.toList ++ (([] ++ ',' :: []) ++ b.toList) := by
    rw [String.toList_append, String.toList_append, List.append_assoc]
    rfl
  rw [he]
  exact ha.append hcomma hb

end Selector

/-! ## Answers -/

/-- **Two selectors answer what the first answers, and what the second adds.** -/
theorem Search.run_append {q : Search} {kids : NodeId → List NodeId} (h : q.tree.WellLinked kids)
    (hl : q.options.limit = none) (s s' : Selector) : (q.run (s.append s')).toList =
      (q.run s).toList ++ (q.run s').toList.filter (· ∉ (q.run s).toList) := by
  have hrun : ∀ s : Selector, (q.run s).toList = (s.alternatives.flatMap q.listed).eraseDups := by
    intro s
    rw [run_toList h, hl]
    rfl
  rw [hrun, hrun, hrun, Selector.alternatives_append, List.flatMap_append, List.eraseDups_append,
    List.removeAll, eraseDups_filter]
  refine congrArg (_ ++ ·) (List.filter_congr fun n _ => ?_)
  rw [Bool.eq_iff_iff, Bool.not_eq_true', decide_eq_true_iff, List.mem_eraseDups,
    List.elem_eq_mem, decide_eq_false_iff_not]

/-- **A comma joins selectors, and their answers one behind the other.** -/
theorem Tree.queryAll_append (changes : List Change) (context : NodeId) {a b : String}
    {s s' : Selector} (ha : Selector.parse a = .ok s) (hb : Selector.parse b = .ok s') :
    let t := Tree.after changes
    (∃ joined, Selector.parse (a ++ "," ++ b) = .ok joined ∧
      joined.alternatives = s.alternatives ++ s'.alternatives) ∧
    (Selector.expression.Matches a.toList → Selector.expression.Matches b.toList →
      Selector.expression.Matches (a ++ "," ++ b).toList) ∧
    ∃ first second both, t.queryAll context a = .ok first ∧ t.queryAll context b = .ok second ∧
      t.queryAll context (a ++ "," ++ b) = .ok both ∧
      both.toList = first.toList ++ second.toList.filter (· ∉ first.toList) := by
  intro t
  obtain ⟨kids, h⟩ : ∃ kids, t.WellLinked kids := Tree.wellLinked_after changes
  have hjoined := Selector.parse_append ha hb
  refine ⟨⟨_, hjoined, Selector.alternatives_append s s'⟩, Selector.matches_append, ?_⟩
  refine ⟨s.all t context, s'.all t context, (s.append s').all t context, queryAll_of_ok ha,
    queryAll_of_ok hb, queryAll_of_ok hjoined, ?_⟩
  exact Search.run_append (q := Selector.searchAll t context) h rfl s s'

/-- Selectors that overlap, with a comma in a quoted value. -/
theorem Tree.queryAll_append_quoted_comma :
    let changes := [.createElement "ul", .createElement "li", .insert .root (.slot 1) none,
      .insert (.slot 1) (.slot 2) none, .setAttribute (.slot 2) "title" "a,b"]
    let t := Tree.after changes
    let s : Selector := ⟨⟨⟨[.attr ⟨"title", .equals, "a,b"⟩]⟩, []⟩, [⟨⟨[.tag "b"]⟩, []⟩]⟩
    let s' : Selector := ⟨⟨⟨[.tag "ul"]⟩, [(.child, ⟨[.tag "li"]⟩)]⟩, [⟨⟨[.tag "ul"]⟩, []⟩]⟩
    Selector.parse "[title=\"a,b\"],b " = .ok s ∧ Selector.parse " ul>li, ul" = .ok s' ∧
      (∃ joined, Selector.parse ("[title=\"a,b\"],b " ++ "," ++ " ul>li, ul") = .ok joined ∧
        joined.alternatives = s.alternatives ++ s'.alternatives) ∧
      ∃ first second both, t.queryAll .root "[title=\"a,b\"],b " = .ok first ∧
        t.queryAll .root " ul>li, ul" = .ok second ∧
        t.queryAll .root ("[title=\"a,b\"],b " ++ "," ++ " ul>li, ul") = .ok both ∧
        both.toList = first.toList ++ second.toList.filter (· ∉ first.toList) := by
  intro changes t s s'
  have ha : Selector.parse "[title=\"a,b\"],b " = .ok s := by decide +kernel
  have hb : Selector.parse " ul>li, ul" = .ok s' := by decide +kernel
  obtain ⟨hparse, -, hquery⟩ := Tree.queryAll_append changes .root ha hb
  exact ⟨ha, hb, hparse, hquery⟩

end MarkupQuery
