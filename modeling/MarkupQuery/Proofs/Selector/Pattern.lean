import MarkupQuery.Proofs.Selector.Parse
import MarkupQuery.Selector.Pattern

/-!
# The grammar as a regular expression

The regular expression of the grammar matches the written forms of selectors. Its pieces match the
written forms of theirs, except that it may part a run of classes in several ways.

* `Pattern.matches_many_char`, `Pattern.matches_name`, `Pattern.matches_around`;
* **`SimpleKind.matches_expression`**;
* `exists_chain`: parts of a compound with its neighbouring classes joined;
* **`Compound.matches_expression`**, `Alternative.matches_expression`,
  **`Selector.matches_expression`**;
* **`Selector.parse_spec`**: what is read, and that it is all that the expression matches.
-/

namespace MarkupQuery

variable {w : List Char} {c : Char} {p : Char → Bool}

/-! ## Patterns -/

namespace Pattern

theorem matches_literal : (literal c).Matches w ↔ w = [c] := by
  simp [literal, Matches]

theorem matches_many {α : Type} {a : Pattern} {R : α → List Char → Prop}
    {Q : List α → List Char → Prop} (ha : ∀ {u}, a.Matches u ↔ ∃ x, R x u)
    (hnil : ∀ {w}, Q [] w ↔ w = [])
    (hcons : ∀ {x xs w}, Q (x :: xs) w ↔ ∃ u v, R x u ∧ Q xs v ∧ w = u ++ v) :
    (many a).Matches w ↔ ∃ xs, Q xs w := by
  constructor
  · rintro ⟨l, hl, rfl⟩
    induction l with
    | nil => exact ⟨[], hnil.mpr rfl⟩
    | cons u l ih =>
      obtain ⟨hu, hrest⟩ := List.forall_mem_cons.mp hl
      obtain ⟨x, hx⟩ := ha.mp hu
      obtain ⟨xs, hxs⟩ := ih hrest
      exact ⟨x :: xs, hcons.mpr ⟨u, l.flatten, hx, hxs, List.flatten_cons⟩⟩
  · rintro ⟨xs, hxs⟩
    induction xs generalizing w with
    | nil => exact ⟨[], by simp, hnil.mp hxs⟩
    | cons x xs ih =>
      obtain ⟨u, v, hu, hv, rfl⟩ := hcons.mp hxs
      obtain ⟨l, hl, rfl⟩ := ih hv
      exact ⟨u :: l, List.forall_mem_cons.mpr ⟨ha.mpr ⟨x, hu⟩, hl⟩, List.flatten_cons.symm⟩

theorem matches_many_flatMap {α : Type} {a : Pattern} {P : α → Prop} {f : α → List Char}
    (ha : ∀ {u}, a.Matches u ↔ ∃ x, P x ∧ u = f x) :
    (many a).Matches w ↔ ∃ xs : List α, (∀ x ∈ xs, P x) ∧ w = xs.flatMap f := by
  refine matches_many (Q := fun xs w => (∀ x ∈ xs, P x) ∧ w = xs.flatMap f) ha (by simp)
    fun {x xs w} => ?_
  rw [List.forall_mem_cons, List.flatMap_cons]
  constructor
  · rintro ⟨⟨hx, hxs⟩, rfl⟩
    exact ⟨f x, xs.flatMap f, ⟨hx, rfl⟩, ⟨hxs, rfl⟩, rfl⟩
  · rintro ⟨u, v, ⟨hx, rfl⟩, ⟨hxs, rfl⟩, rfl⟩
    exact ⟨⟨hx, hxs⟩, rfl⟩

theorem matches_many_char : (many (char p)).Matches w ↔ ∀ c ∈ w, p c = true := by
  rw [matches_many_flatMap (P := fun c => p c = true) (f := fun c => [c]) Iff.rfl]
  constructor
  · rintro ⟨xs, hxs, rfl⟩
    rwa [List.flatMap_singleton']
  · intro h
    exact ⟨w, h, (List.flatMap_singleton' w).symm⟩

theorem matches_name {start more : Char → Bool} :
    (name start more).Matches w ↔ ∃ v, IsName start more v ∧ w = v.toList := by
  constructor
  · rintro ⟨u, v, ⟨c, hc, rfl⟩, hv, rfl⟩
    exact ⟨String.ofList (c :: v), ⟨c, v, String.toList_ofList, hc, matches_many_char.mp hv⟩,
      String.toList_ofList.symm⟩
  · rintro ⟨v, ⟨c, ds, hv, hc, hds⟩, rfl⟩
    exact ⟨[c], ds, ⟨c, hc, rfl⟩, matches_many_char.mpr hds, hv⟩

theorem matches_around : (around c).Matches w ↔
    ∃ u v, Blanks u ∧ Blanks v ∧ w = u ++ c :: v := by
  constructor
  · rintro ⟨u, x, hu, ⟨y, v, hy, hv, rfl⟩, rfl⟩
    rw [matches_literal.mp hy]
    exact ⟨u, v, matches_many_char.mp hu, matches_many_char.mp hv, rfl⟩
  · rintro ⟨u, v, hu, hv, rfl⟩
    exact ⟨u, c :: v, matches_many_char.mpr hu,
      ⟨[c], v, matches_literal.mpr rfl, matches_many_char.mpr hv, rfl⟩, rfl⟩

end Pattern

open Pattern

theorem matches_identExpression : identExpression.Matches w ↔ ∃ v, IsIdent v ∧ w = v.toList :=
  matches_name

/-! ## Simple selectors -/

theorem AttributeOperator.matches_expression :
    expression.Matches w ↔ ∃ op : AttributeOperator, op ≠ .present ∧ w = op.symbol.toList := by
  constructor
  · rintro ⟨u, v, hu, hv, rfl⟩
    rw [matches_literal.mp hv]
    rcases hu with rfl | ⟨c, hc, rfl⟩
    · exact ⟨.equals, by decide, rfl⟩
    · simp only [List.contains_eq_mem, List.mem_cons, List.not_mem_nil, or_false,
        decide_eq_true_eq] at hc
      rcases hc with rfl | rfl | rfl | rfl | rfl
      · exact ⟨.includes, by decide, rfl⟩
      · exact ⟨.dashMatch, by decide, rfl⟩
      · exact ⟨.startsWith, by decide, rfl⟩
      · exact ⟨.endsWith, by decide, rfl⟩
      · exact ⟨.contains, by decide, rfl⟩
  · rintro ⟨op, hop, rfl⟩
    cases op with
    | present => exact absurd rfl hop
    | equals => exact ⟨[], ['='], .inl rfl, matches_literal.mpr rfl, rfl⟩
    | _ => exact ⟨[_], ['='], .inr ⟨_, by decide, rfl⟩, matches_literal.mpr rfl, rfl⟩

theorem AttributeTest.matches_expression : SimpleKind.attr.expression.Matches w ↔
    ∃ test : AttributeTest, test.WellFormed ∧ w = test.text.toList := by
  constructor
  · rintro ⟨u, x, hu, ⟨y, z, hy, ⟨v, t, hv, ht, rfl⟩, rfl⟩, rfl⟩
    obtain ⟨name, hname, rfl⟩ := matches_name.mp hy
    rw [matches_literal.mp hu, matches_literal.mp ht]
    rcases hv with rfl | ⟨o, q, ho, ⟨q₁, r, hq₁, ⟨val, q₂, hval, hq₂, rfl⟩, rfl⟩, rfl⟩
    · refine ⟨.present name, ⟨hname, by simp [present], fun _ => rfl⟩, ?_⟩
      rw [text_of_present rfl]
      rfl
    · obtain ⟨op, hop, rfl⟩ := AttributeOperator.matches_expression.mp ho
      rw [matches_literal.mp hq₁, matches_literal.mp hq₂]
      have hval' : '"' ∉ val := fun h => by
        simpa using matches_many_char.mp hval '"' h
      refine ⟨⟨name, op, String.ofList val⟩, ⟨hname, ?_, fun e => absurd e hop⟩, ?_⟩
      · rwa [String.toList_ofList]
      · rw [text_of_symbol hop, String.toList_ofList]
        simp
  · rintro ⟨test, ⟨hname, hvalue, -⟩, rfl⟩
    by_cases hop : test.operator = .present
    · rw [text_of_present hop]
      exact ⟨['['], _, matches_literal.mpr rfl, ⟨_, [']'], matches_name.mpr ⟨_, hname, rfl⟩,
        ⟨[], [']'], .inl rfl, matches_literal.mpr rfl, rfl⟩, rfl⟩, rfl⟩
    · have hval : (many (char (· ≠ '"'))).Matches test.value.toList :=
        matches_many_char.mpr fun c hc => decide_eq_true fun e => hvalue (e ▸ hc)
      have hop' := AttributeOperator.matches_expression.mpr ⟨test.operator, hop, rfl⟩
      rw [text_of_symbol hop]
      have hquoted : (seq (literal '"') (seq (many (char (· ≠ '"'))) (literal '"'))).Matches
          (['"'] ++ (test.value.toList ++ ['"'])) :=
        ⟨['"'], _, matches_literal.mpr rfl, ⟨_, ['"'], hval, matches_literal.mpr rfl, rfl⟩, rfl⟩
      refine ⟨['['], _, matches_literal.mpr rfl, ⟨_, _, matches_name.mpr ⟨_, hname, rfl⟩,
        ⟨_, [']'], .inr ⟨_, _, hop', hquoted, rfl⟩, matches_literal.mpr rfl, rfl⟩, rfl⟩, ?_⟩
      simp

theorem matches_classes : SimpleKind.classes.expression.Matches w ↔
    ∃ names, (names ≠ [] ∧ ∀ v ∈ names, IsIdent v) ∧ w = dotted names := by
  have hclass : ∀ {u}, (seq (literal '.') identExpression).Matches u ↔
      ∃ v, IsIdent v ∧ u = '.' :: v.toList := by
    intro u
    constructor
    · rintro ⟨x, y, hx, hy, rfl⟩
      obtain ⟨v, hv, rfl⟩ := matches_identExpression.mp hy
      exact ⟨v, hv, by rw [matches_literal.mp hx]; rfl⟩
    · rintro ⟨v, hv, rfl⟩
      exact ⟨['.'], v.toList, matches_literal.mpr rfl, matches_identExpression.mpr ⟨v, hv, rfl⟩, rfl⟩
  constructor
  · rintro ⟨u, x, hu, hx, rfl⟩
    obtain ⟨v, hv, rfl⟩ := hclass.mp hu
    obtain ⟨names, hnames, rfl⟩ := (matches_many_flatMap hclass).mp hx
    exact ⟨v :: names, ⟨by simp, List.forall_mem_cons.mpr ⟨hv, hnames⟩⟩, rfl⟩
  · rintro ⟨names, ⟨hne, hnames⟩, rfl⟩
    cases names with
    | nil => exact absurd rfl hne
    | cons v names =>
      obtain ⟨hv, hnames⟩ := List.forall_mem_cons.mp hnames
      exact ⟨_, _, hclass.mpr ⟨v, hv, rfl⟩, (matches_many_flatMap hclass).mpr ⟨names, hnames, rfl⟩,
        rfl⟩

theorem SimpleKind.exists_of_kind {α : Type} {k : SimpleKind} {f : α → Simple}
    (hk : ∀ s : Simple, s.kind = k ↔ ∃ a, f a = s) :
    (∃ s : Simple, (s.kind = k ∧ s.WellFormed) ∧ w = s.text.toList) ↔
      ∃ a, (f a).WellFormed ∧ w = (f a).text.toList := by
  simp only [hk]
  constructor
  · rintro ⟨_, ⟨⟨a, rfl⟩, hw⟩, ht⟩
    exact ⟨a, hw, ht⟩
  · rintro ⟨a, hw, ht⟩
    exact ⟨f a, ⟨⟨a, rfl⟩, hw⟩, ht⟩

/-- **The expression of a kind matches the written forms of its selectors.** -/
theorem SimpleKind.matches_expression {k : SimpleKind} : k.expression.Matches w ↔
    ∃ s : Simple, (s.kind = k ∧ s.WellFormed) ∧ w = s.text.toList := by
  cases k with
  | universal =>
    rw [exists_of_kind (f := fun _ : Unit => .universal) fun s => by cases s <;> simp [Simple.kind],
      expression, matches_literal]
    constructor
    · exact fun e => ⟨(), trivial, e⟩
    · rintro ⟨-, -, e⟩
      exact e
  | tag =>
    rw [exists_of_kind (f := .tag) fun s => by cases s <;> simp [Simple.kind]]
    exact matches_name
  | attr =>
    rw [exists_of_kind (f := .attr) fun s => by cases s <;> simp [Simple.kind]]
    exact AttributeTest.matches_expression
  | id =>
    rw [exists_of_kind (f := .id) fun s => by cases s <;> simp [Simple.kind]]
    constructor
    · rintro ⟨u, x, hu, hx, rfl⟩
      obtain ⟨v, hv, rfl⟩ := matches_identExpression.mp hx
      exact ⟨v, hv, by rw [matches_literal.mp hu, Simple.text]; simp⟩
    · rintro ⟨v, hv, rfl⟩
      exact ⟨['#'], v.toList, matches_literal.mpr rfl, matches_identExpression.mpr ⟨v, hv, rfl⟩,
        by rw [Simple.text]; simp⟩
  | classes =>
    rw [exists_of_kind (f := .classes) fun s => by cases s <;> simp [Simple.kind], matches_classes]
    simp only [text_classes]
    rfl

/-! ## Compounds -/

theorem Simple.matches_leadExpression : Simple.leadExpression.Matches w ↔
    ∃ p : Simple, (p.kind.leadsCompound = true ∧ p.WellFormed) ∧ w = p.text.toList := by
  rw [leadExpression, Pattern.Matches, SimpleKind.matches_expression, SimpleKind.matches_expression,
    ← exists_or]
  refine exists_congr fun p => ?_
  cases hk : p.kind <;> simp [SimpleKind.leadsCompound]

theorem Simple.matches_partExpression : Simple.partExpression.Matches w ↔
    ∃ p : Simple, (p.kind.leadsCompound = false ∧ p.WellFormed) ∧ w = p.text.toList := by
  rw [partExpression, Pattern.Matches, Pattern.Matches, SimpleKind.matches_expression,
    SimpleKind.matches_expression, SimpleKind.matches_expression, ← exists_or, ← exists_or]
  refine exists_congr fun p => ?_
  cases hk : p.kind <;> simp [SimpleKind.leadsCompound]

theorem exists_chain {parts : List Simple}
    (h : ∀ p ∈ parts, p.kind.leadsCompound = false ∧ p.WellFormed) :
    ∃ parts' : List Simple, parts'.IsChain Simple.MayFollow ∧ (parts ≠ [] → parts' ≠ []) ∧
      (∀ p ∈ parts', p.kind.leadsCompound = false ∧ p.WellFormed) ∧
      written parts' = written parts := by
  induction parts with
  | nil => exact ⟨[], .nil, fun h => h, by simp, rfl⟩
  | cons p parts ih =>
    obtain ⟨hp, hparts⟩ := List.forall_mem_cons.mp h
    obtain ⟨parts', hchain, -, hall, he⟩ := ih hparts
    have hadd : (∀ q ∈ parts'.head?, ¬ (p.kind = .classes ∧ q.kind = .classes)) →
        ∃ parts'' : List Simple, parts''.IsChain Simple.MayFollow ∧ (p :: parts ≠ [] → parts'' ≠ []) ∧
          (∀ p ∈ parts'', p.kind.leadsCompound = false ∧ p.WellFormed) ∧
          written parts'' = written (p :: parts) := by
      intro hno
      refine ⟨p :: parts', List.isChain_cons.mpr ⟨fun q hq => ?_, hchain⟩, fun _ => by simp,
        List.forall_mem_cons.mpr ⟨hp, hall⟩, by rw [written_cons, he, written_cons]⟩
      exact ⟨(hall q (List.mem_of_mem_head? hq)).1, hno q hq⟩
    cases parts' with
    | nil => exact hadd (by simp)
    | cons q parts' =>
      by_cases hboth : p.kind = .classes ∧ q.kind = .classes
      · -- the two runs become one, which stands where the second stood
        obtain ⟨hq, hrest⟩ := List.forall_mem_cons.mp hall
        cases p with
        | classes names =>
          cases q with
          | classes names' =>
            refine ⟨.classes (names ++ names') :: parts', ?_, fun _ => by simp,
              List.forall_mem_cons.mpr ⟨⟨rfl, ?_, ?_⟩, hrest⟩, ?_⟩
            · rw [List.isChain_cons] at hchain ⊢
              exact hchain
            · exact fun e => hp.2.1 (List.append_eq_nil_iff.mp e).1
            · exact fun v hv => (List.mem_append.mp hv).elim (hp.2.2 v) (hq.2.2 v)
            · rw [written_cons, text_classes] at he ⊢
              rw [written_cons, text_classes, ← he, dotted_append, List.append_assoc]
          | _ => cases hboth.2
        | _ => cases hboth.1
      · exact hadd fun q' hq' => by
          obtain rfl := Option.some.inj hq'
          exact hboth

theorem Compound.matches_expression :
    Compound.expression.Matches w ↔ ∃ d : Compound, d.WellFormed ∧ w = d.text.toList := by
  have hmany : ∀ {w}, (many Simple.partExpression).Matches w ↔ ∃ parts : List Simple,
      (∀ p ∈ parts, p.kind.leadsCompound = false ∧ p.WellFormed) ∧ w = written parts :=
    matches_many_flatMap Simple.matches_partExpression
  constructor
  · rintro (⟨u, v, hu, hv, rfl⟩ | ⟨u, v, hu, hv, rfl⟩)
    · obtain ⟨p, ⟨hlead, hp⟩, rfl⟩ := Simple.matches_leadExpression.mp hu
      obtain ⟨parts, hparts, rfl⟩ := hmany.mp hv
      obtain ⟨parts', hchain, -, hall, he⟩ := exists_chain hparts
      refine ⟨⟨p :: parts'⟩, ⟨by simp, ?_, List.isChain_cons.mpr ⟨fun q hq => ⟨?_, ?_⟩, hchain⟩⟩, ?_⟩
      · exact List.forall_mem_cons.mpr ⟨hp, fun q hq => (hall q hq).2⟩
      · exact (hall q (List.mem_of_mem_head? hq)).1
      · rintro ⟨hk, -⟩
        rw [hk] at hlead
        cases hlead
      · rw [Compound.text_toList, written_cons, he]
    · obtain ⟨p, hp, rfl⟩ := Simple.matches_partExpression.mp hu
      obtain ⟨parts, hparts, rfl⟩ := hmany.mp hv
      obtain ⟨parts', hchain, hne, hall, he⟩ := exists_chain (List.forall_mem_cons.mpr ⟨hp, hparts⟩)
      refine ⟨⟨parts'⟩, ⟨hne (by simp), fun q hq => (hall q hq).2, hchain⟩, ?_⟩
      rw [Compound.text_toList, he, written_cons]
  · rintro ⟨⟨parts⟩, ⟨hne, hparts, hchain⟩, rfl⟩
    cases parts with
    | nil => exact absurd rfl hne
    | cons p parts =>
      obtain ⟨hp, hparts⟩ := List.forall_mem_cons.mp hparts
      have hrest : ∀ q ∈ parts, q.kind.leadsCompound = false ∧ q.WellFormed := fun q hq =>
        ⟨Simple.not_leads_of_chain hchain q hq, hparts q hq⟩
      rw [Compound.text_toList, written_cons]
      cases hlead : p.kind.leadsCompound with
      | true =>
        exact .inl ⟨_, _, Simple.matches_leadExpression.mpr ⟨p, ⟨hlead, hp⟩, rfl⟩,
          hmany.mpr ⟨parts, hrest, rfl⟩, rfl⟩
      | false =>
        exact .inr ⟨_, _, Simple.matches_partExpression.mpr ⟨p, ⟨hlead, hp⟩, rfl⟩,
          hmany.mpr ⟨parts, hrest, rfl⟩, rfl⟩

/-! ## Selectors -/

theorem Combinator.matches_expression {k : Combinator} :
    k.expression.Matches w ↔ (Separator.combinator k).Renders w := by
  rw [Combinator.expression, Separator.Renders, Separator.symbol?]
  cases k.symbol? with
  | some c => exact matches_around
  | none =>
    constructor
    · rintro ⟨u, v, ⟨c, hc, rfl⟩, hv, rfl⟩
      exact ⟨List.forall_mem_cons.mpr ⟨hc, matches_many_char.mp hv⟩, by simp⟩
    · rintro ⟨hblanks, hne⟩
      cases w with
      | nil => exact absurd rfl hne
      | cons c w =>
        obtain ⟨hc, hw⟩ := List.forall_mem_cons.mp hblanks
        exact ⟨[c], w, ⟨c, hc, rfl⟩, matches_many_char.mpr hw, rfl⟩

theorem Combinator.matches_anyExpression : Combinator.anyExpression.Matches w ↔
    ∃ k : Combinator, (Separator.combinator k).Renders w := by
  simp only [anyExpression, Pattern.Matches, matches_expression]
  constructor
  · rintro (h | h | h | h) <;> exact ⟨_, h⟩
  · rintro ⟨k, h⟩
    cases k with
    | descendant => exact .inl h
    | child => exact .inr (.inl h)
    | adjacentSibling => exact .inr (.inr (.inl h))
    | generalSibling => exact .inr (.inr (.inr h))

theorem Alternative.matches_expression : Alternative.expression.Matches w ↔
    ∃ a : Alternative, a.WellFormed ∧ a.Renders w := by
  have hlink : ∀ {u}, (seq Combinator.anyExpression Compound.expression).Matches u ↔
      ∃ s : Combinator × Compound, s.2.WellFormed ∧
        ∃ x, (Separator.combinator s.1).Renders x ∧ u = x ++ s.2.text.toList := by
    intro u
    constructor
    · rintro ⟨x, y, hx, hy, rfl⟩
      obtain ⟨k, hk⟩ := Combinator.matches_anyExpression.mp hx
      obtain ⟨d, hd, rfl⟩ := Compound.matches_expression.mp hy
      exact ⟨(k, d), hd, x, hk, rfl⟩
    · rintro ⟨⟨k, d⟩, hd, x, hx, rfl⟩
      exact ⟨x, _, Combinator.matches_anyExpression.mpr ⟨k, hx⟩,
        Compound.matches_expression.mpr ⟨d, hd, rfl⟩, rfl⟩
  have htail : ∀ {v}, (many (seq Combinator.anyExpression Compound.expression)).Matches v ↔
      ∃ tail : List (Combinator × Compound), (∀ s ∈ tail, s.2.WellFormed) ∧ RendersTail tail v := by
    refine matches_many (Q := fun tail v => (∀ s ∈ tail, s.2.WellFormed) ∧ RendersTail tail v)
      hlink (by simp [RendersTail]) fun {s tail v} => ?_
    rw [List.forall_mem_cons, RendersTail]
    constructor
    · rintro ⟨⟨hs, htail⟩, x, y, hx, hy, rfl⟩
      exact ⟨_, y, ⟨hs, x, hx, rfl⟩, ⟨htail, hy⟩, by rw [List.append_assoc]⟩
    · rintro ⟨u, y, ⟨hs, x, hx, rfl⟩, ⟨htail, hy⟩, rfl⟩
      exact ⟨⟨hs, htail⟩, x, y, hx, hy, by rw [List.append_assoc]⟩
  constructor
  · rintro ⟨u, v, hu, hv, rfl⟩
    obtain ⟨d, hd, rfl⟩ := Compound.matches_expression.mp hu
    obtain ⟨tail, hall, hv⟩ := htail.mp hv
    exact ⟨⟨d, tail⟩, ⟨hd, hall⟩, v, hv, rfl⟩
  · rintro ⟨a, ⟨hd, hall⟩, v, hv, rfl⟩
    exact ⟨_, v, Compound.matches_expression.mpr ⟨a.head, hd, rfl⟩, htail.mpr ⟨a.tail, hall, hv⟩, rfl⟩

theorem Selector.matches_expression : Selector.expression.Matches w ↔
    ∃ s : Selector, s.WellFormed ∧ s.Renders w := by
  have hmore : ∀ {v}, (many (seq (around ',') Alternative.expression)).Matches v ↔
      ∃ as : List Alternative, (∀ a ∈ as, a.WellFormed) ∧ RendersMore as v := by
    refine matches_many (R := fun a u => a.WellFormed ∧ ∃ x y, Separator.comma.Renders x ∧
        a.Renders y ∧ u = x ++ y)
      (Q := fun as v => (∀ a ∈ as, a.WellFormed) ∧ RendersMore as v) ?_ (by simp [RendersMore])
      fun {a as v} => ?_
    · intro u
      constructor
      · rintro ⟨x, y, hx, hy, rfl⟩
        obtain ⟨a, ha, hy⟩ := Alternative.matches_expression.mp hy
        exact ⟨a, ha, x, y, matches_around.mp hx, hy, rfl⟩
      · rintro ⟨a, ha, x, y, hx, hy, rfl⟩
        exact ⟨x, y, matches_around.mpr hx, Alternative.matches_expression.mpr ⟨a, ha, hy⟩, rfl⟩
    · rw [List.forall_mem_cons, RendersMore]
      constructor
      · rintro ⟨⟨ha, has⟩, x, y, z, hx, hy, hz, rfl⟩
        exact ⟨_, z, ⟨ha, x, y, hx, hy, rfl⟩, ⟨has, hz⟩, by rw [List.append_assoc]⟩
      · rintro ⟨u, z, ⟨ha, x, y, hx, hy, rfl⟩, ⟨has, hz⟩, rfl⟩
        exact ⟨⟨ha, has⟩, x, y, z, hx, hy, hz, by rw [List.append_assoc]⟩
  constructor
  · rintro ⟨u, v, hu, hv, rfl⟩
    obtain ⟨a, ha, hu⟩ := Alternative.matches_expression.mp hu
    obtain ⟨as, has, hv⟩ := hmore.mp hv
    exact ⟨⟨a, as⟩, List.forall_mem_cons.mpr ⟨ha, has⟩, u, v, hu, hv, rfl⟩
  · rintro ⟨s, hs, u, v, hu, hv, rfl⟩
    obtain ⟨ha, has⟩ := List.forall_mem_cons.mp hs
    exact ⟨u, v, Alternative.matches_expression.mpr ⟨s.head, ha, hu⟩, hmore.mpr ⟨s.tail, has, hv⟩, rfl⟩

/-! ## What is read -/

/-- **A text is read exactly when it is a written form between blanks**, as the grammar says. -/
theorem Selector.parse_spec (text : String) (s : Selector) :
    (Selector.parse text = .ok s ↔ s.WellFormed ∧ s.Spells text) ∧
      ((∃ s, Selector.parse text = .ok s) ↔ Selector.expression.Matches (trim text.toList)) := by
  refine ⟨by rw [Selector.parse_eq_ok, Selector.read?_trim], ?_⟩
  rw [Selector.matches_expression]
  refine exists_congr fun s => ?_
  rw [Selector.parse_eq_ok, Selector.read?_eq_some]

end MarkupQuery
