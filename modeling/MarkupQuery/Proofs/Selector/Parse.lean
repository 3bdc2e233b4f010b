import MarkupQuery.Proofs.Selector.Grammar

/-!
# Reading selectors

The reader gives a selector for exactly the texts that are written forms of one, with any blanks at
the two ends. A text is a written form of at most one selector.

* `readPart_eq_some`, `readParts_sound`, `readParts_complete`: the parts of a compound;
* `Delimits`: what may stand behind a compound; `readCompound_sound`, `readCompound_complete`;
* **`readSeparator_eq_some`**; `readLinks_sound`, `readLinks_complete`;
* **`Selector.read?_eq_some`**: texts without outer blanks;
* `trim_append`, `exists_trim`;
* **`Selector.read?_trim`**: all texts, with `Selector.Spells`.
-/

namespace MarkupQuery

variable {cs rest : List Char} {c : Char}

/-! ## Characters -/

theorem isIdentChar_cases (h : isIdentChar c = true) :
    65 ≤ c.toNat ∧ c.toNat ≤ 90 ∨ 97 ≤ c.toNat ∧ c.toNat ≤ 122 ∨ 48 ≤ c.toNat ∧ c.toNat ≤ 57 ∨
      c = '_' ∨ c = '-' := by
  have hrange : ∀ {a b : UInt32}, c.val ≥ a ∧ c.val ≤ b → a.toNat ≤ c.toNat ∧ c.toNat ≤ b.toNat :=
    fun h => ⟨UInt32.le_iff_toNat_le.mp h.1, UInt32.le_iff_toNat_le.mp h.2⟩
  have hand : ∀ {a b : UInt32}, (decide (c.val ≥ a) && decide (c.val ≤ b)) = true →
      a.toNat ≤ c.toNat ∧ c.toNat ≤ b.toNat := fun h => hrange (by simpa using h)
  simp only [isIdentChar, Char.isAlphanum, Bool.or_eq_true, decide_eq_true_eq] at h
  rcases h with ((h | h) | h) | h
  · rcases (Bool.or_eq_true _ _).mp (show (c.isUpper || c.isLower) = true from h) with h | h
    · exact .inl (hrange (a := 65) (b := 90) (of_decide_eq_true h))
    · exact .inr (.inl (hand (a := 97) (b := 122) h))
  · exact .inr (.inr (.inl (hand (a := 48) (b := 57) h)))
  · exact .inr (.inr (.inr (.inl h)))
  · exact .inr (.inr (.inr (.inr h)))

theorem isBlank_of_isIdentChar (h : isIdentChar c = true) : isBlank c = false := by
  rw [Bool.eq_false_iff]
  intro hb
  simp only [isBlank, blankRanges, List.any_cons, List.any_nil, Bool.or_false, Bool.or_eq_true,
    Bool.and_eq_true, decide_eq_true_eq] at hb
  rcases isIdentChar_cases h with h | h | h | rfl | rfl
  · omega
  · omega
  · omega
  · exact absurd hb (by decide)
  · exact absurd hb (by decide)

/-- What may stand right behind a compound: nothing, a blank or the symbol of a separator. -/
def Delimits (rest : List Char) : Prop :=
  ∀ c ∈ rest.head?, isBlank c = true ∨ ∃ sep : Separator, sep.symbol? = some c

theorem Separator.symbol?_cases {sep : Separator} (h : sep.symbol? = some c) :
    c = ',' ∨ c = '>' ∨ c = '+' ∨ c = '~' := by
  cases sep with
  | comma => exact .inl (Option.some.inj h).symm
  | combinator k =>
    cases k with
    | descendant => cases h
    | child => exact .inr (.inl (Option.some.inj h).symm)
    | adjacentSibling => exact .inr (.inr (.inl (Option.some.inj h).symm))
    | generalSibling => exact .inr (.inr (.inr (Option.some.inj h).symm))

theorem Separator.isBlank_symbol {sep : Separator} (h : sep.symbol? = some c) :
    isBlank c = false := by
  rcases symbol?_cases h with rfl | rfl | rfl | rfl <;> decide

theorem SimpleKind.Opens.not_delimiter {k : SimpleKind} (h : k.Opens c) :
    isBlank c = false ∧ ∀ sep : Separator, sep.symbol? ≠ some c := by
  have hident : c.isAlpha = true → isIdentChar c = true := fun h => by
    simp [isIdentChar, Char.isAlphanum, h]
  cases k with
  | tag =>
    change c.isAlpha = true at h
    refine ⟨isBlank_of_isIdentChar (hident h), fun sep hs => ?_⟩
    rcases Separator.symbol?_cases hs with rfl | rfl | rfl | rfl <;> exact absurd h (by decide)
  | _ =>
    obtain rfl := h
    refine ⟨by decide, fun sep hs => ?_⟩
    rcases Separator.symbol?_cases hs with h | h | h | h <;> exact absurd h (by decide)

theorem Delimits.not_isIdentChar (h : Delimits rest) : ∀ c ∈ rest.head?, isIdentChar c = false := by
  intro c hc
  rw [Bool.eq_false_iff]
  intro hi
  rcases h c hc with hb | ⟨sep, hs⟩
  · rw [isBlank_of_isIdentChar hi] at hb
    cases hb
  · rcases Separator.symbol?_cases hs with rfl | rfl | rfl | rfl <;> exact absurd hi (by decide)

/-! ## Compounds -/

/-- The parts of a compound, side by side. -/
def written (parts : List Simple) : List Char := parts.flatMap (·.text.toList)

theorem written_cons (p : Simple) (parts : List Simple) :
    written (p :: parts) = p.text.toList ++ written parts := List.flatMap_cons

theorem Compound.text_toList (d : Compound) : d.text.toList = written d.parts := by
  rw [Compound.text, String.toList_join, List.flatMap_map, written]

theorem readFirstOf_eq_some {kinds : List SimpleKind} {p : Simple} :
    readFirstOf kinds cs = some (p, rest) ↔
      p.kind ∈ kinds ∧ p.WellFormed ∧ p.Stops rest ∧ cs = p.text.toList ++ rest := by
  rw [readFirstOf]
  constructor
  · intro h
    obtain ⟨k, hk, h⟩ := List.exists_of_findSome?_eq_some h
    obtain ⟨rfl, hp⟩ := SimpleKind.read_eq_some.mp h
    exact ⟨hk, hp⟩
  · rintro ⟨hk, hp⟩
    have h : p.kind.read cs = some (p, rest) := SimpleKind.read_eq_some.mpr ⟨rfl, hp⟩
    cases hf : kinds.findSome? fun k => k.read cs with
    | none =>
      rw [List.findSome?_eq_none_iff] at hf
      exact absurd ((hf _ hk).symm.trans h) (by simp)
    | some s =>
      obtain ⟨k, -, hs⟩ := List.exists_of_findSome?_eq_some hf
      obtain rfl := SimpleKind.read_unique (by rw [hs]; rfl) (by rw [h]; rfl)
      exact hs.symm.trans h

theorem readPart_eq_some {p : Simple} : readPart cs = some (p, rest) ↔
    p.kind.leadsCompound = false ∧ p.WellFormed ∧ p.Stops rest ∧ cs = p.text.toList ++ rest := by
  rw [readPart, readFirstOf_eq_some]
  refine and_congr ?_ Iff.rfl
  cases p.kind <;> decide

theorem SimpleKind.Opens.not_isIdentChar {k : SimpleKind} (h : k.Opens c)
    (hlead : k.leadsCompound = false) : isIdentChar c = false := by
  cases k with
  | universal => cases hlead
  | tag => cases hlead
  | _ =>
    obtain rfl := h
    decide

theorem SimpleKind.Opens.ne_dot {k : SimpleKind} (h : k.Opens c) (hk : k ≠ .classes) :
    c ≠ '.' := by
  rintro rfl
  exact hk (opens_unique h rfl)

theorem Simple.stops_append {p q : Simple} (hq : q.WellFormed) (hlead : q.kind.leadsCompound = false)
    (l : List Char) : p.Stops (q.text.toList ++ l) ↔ ¬ (p.kind = .classes ∧ q.kind = .classes) := by
  obtain ⟨c, tail, hc, ho⟩ := SimpleKind.opens_text hq l
  have hident : ∀ d ∈ (c :: tail).head?, isIdentChar d = false := by
    intro d hd
    obtain rfl := Option.some.inj hd
    exact ho.not_isIdentChar hlead
  cases p with
  | universal => exact iff_of_true trivial fun h => SimpleKind.noConfusion h.1
  | attr test => exact iff_of_true trivial fun h => SimpleKind.noConfusion h.1
  | tag v =>
    rw [hc]
    exact iff_of_true hident fun h => SimpleKind.noConfusion h.1
  | id v =>
    rw [hc]
    exact iff_of_true hident fun h => SimpleKind.noConfusion h.1
  | classes names =>
    by_cases hk : q.kind = .classes
    · refine iff_of_false (fun h => ?_) (fun h => h ⟨rfl, hk⟩)
      cases q with
      | classes names' =>
        cases names' with
        | nil => exact absurd rfl hq.1
        | cons v names' =>
          -- a second run of classes would go on with the first
          rw [text_classes] at h
          obtain ⟨d, ds, hv, hd, -⟩ := hq.2 v List.mem_cons_self
          have := h.2 d (ds ++ dotted names' ++ l) (by simp [dotted, hv])
          rw [hd] at this
          cases this
      | _ => cases hk
    · rw [hc]
      refine iff_of_true ⟨hident, fun d ds he => ?_⟩ (fun h => hk h.2)
      exact absurd (List.cons.inj he).1 (ho.ne_dot hk)

theorem Simple.stops_of_delimits (h : Delimits rest) (p : Simple) : p.Stops rest := by
  cases p with
  | universal => trivial
  | attr test => trivial
  | tag v => exact h.not_isIdentChar
  | id v => exact h.not_isIdentChar
  | classes names =>
    refine ⟨h.not_isIdentChar, fun c tail he => ?_⟩
    subst he
    rcases h '.' rfl with hb | ⟨sep, hs⟩
    · exact absurd hb (by decide)
    · rcases Separator.symbol?_cases hs with h | h | h | h <;> exact absurd h (by decide)

theorem readPart_of_delimits (h : Delimits rest) : readPart rest = none := by
  cases hr : readPart rest with
  | none => rfl
  | some s =>
    obtain ⟨-, hw, -, he⟩ := readPart_eq_some.mp hr
    obtain ⟨c, tail, hc, ho⟩ := SimpleKind.opens_text hw s.2
    rcases h c (by rw [he, hc]; rfl) with hb | ⟨sep, hs⟩
    · rw [ho.not_delimiter.1] at hb
      cases hb
    · exact absurd hs (ho.not_delimiter.2 sep)

theorem readParts_sound {p : Simple} {parts : List Simple} (hp : p.Stops cs)
    (h : readPart.many readPart_shrinks cs = (parts, rest)) :
    (p :: parts).IsChain Simple.MayFollow ∧ (∀ q ∈ parts, q.WellFormed) ∧
      cs = written parts ++ rest := by
  induction parts generalizing p cs with
  | nil =>
    obtain ⟨-, rfl⟩ := Reader.many_eq_nil.mp h
    exact ⟨.singleton p, by simp, rfl⟩
  | cons q parts ih =>
    obtain ⟨mid, hq, hm⟩ := Reader.many_eq_cons.mp h
    obtain ⟨hlead, hw, hs, rfl⟩ := readPart_eq_some.mp hq
    obtain ⟨hchain, hparts, rfl⟩ := ih hs hm
    refine ⟨.cons_cons ⟨hlead, (Simple.stops_append hw hlead _).mp hp⟩ hchain,
      List.forall_mem_cons.mpr ⟨hw, hparts⟩, ?_⟩
    rw [written_cons, List.append_assoc]

theorem readParts_complete {p : Simple} {parts : List Simple}
    (hchain : (p :: parts).IsChain Simple.MayFollow) (hparts : ∀ q ∈ parts, q.WellFormed)
    (hd : Delimits rest) :
    readPart.many readPart_shrinks (written parts ++ rest) = (parts, rest) ∧
      p.Stops (written parts ++ rest) := by
  induction parts generalizing p with
  | nil => exact ⟨Reader.many_eq_nil.mpr ⟨readPart_of_delimits hd, rfl⟩, p.stops_of_delimits hd⟩
  | cons q parts ih =>
    obtain ⟨⟨hlead, hclasses⟩, hchain⟩ := List.isChain_cons_cons.mp hchain
    obtain ⟨hw, hparts⟩ := List.forall_mem_cons.mp hparts
    obtain ⟨hmany, hs⟩ := ih hchain hparts
    rw [written_cons, List.append_assoc]
    refine ⟨Reader.many_eq_cons.mpr ⟨_, readPart_eq_some.mpr ⟨hlead, hw, hs, rfl⟩, hmany⟩, ?_⟩
    exact (Simple.stops_append hw hlead _).mpr hclasses

theorem readCompound_sound {d : Compound} (h : readCompound cs = some (d, rest)) :
    d.WellFormed ∧ cs = d.text.toList ++ rest := by
  rw [readCompound] at h
  split at h
  · cases h
  · rename_i p mid hp
    obtain ⟨-, hw, hs, rfl⟩ := readFirstOf_eq_some.mp hp
    cases hm : readPart.many readPart_shrinks mid with
    | mk parts left =>
      rw [hm] at h
      obtain ⟨rfl, rfl⟩ := Prod.mk.inj (Option.some.inj h)
      obtain ⟨hchain, hparts, rfl⟩ := readParts_sound hs hm
      refine ⟨⟨by simp, List.forall_mem_cons.mpr ⟨hw, hparts⟩, hchain⟩, ?_⟩
      rw [Compound.text_toList, written_cons, List.append_assoc]

theorem readCompound_complete {d : Compound} (hd : d.WellFormed) (hr : Delimits rest) :
    readCompound (d.text.toList ++ rest) = some (d, rest) := by
  obtain ⟨parts⟩ := d
  obtain ⟨hne, hparts, hchain⟩ := hd
  cases parts with
  | nil => exact absurd rfl hne
  | cons p parts =>
    obtain ⟨hw, hparts⟩ := List.forall_mem_cons.mp hparts
    obtain ⟨hmany, hs⟩ := readParts_complete hchain hparts hr
    have hp : readFirstOf SimpleKind.all (p.text.toList ++ (written parts ++ rest)) =
        some (p, written parts ++ rest) :=
      readFirstOf_eq_some.mpr ⟨by cases p.kind <;> decide, hw, hs, rfl⟩
    rw [Compound.text_toList, written_cons, List.append_assoc, readCompound]
    simp only [hp, hmany]

theorem Compound.WellFormed.head {d : Compound} (hd : d.WellFormed) (l : List Char) :
    ∃ c tail, d.text.toList ++ l = c :: tail ∧ isBlank c = false ∧
      ∀ sep : Separator, sep.symbol? ≠ some c := by
  obtain ⟨parts⟩ := d
  cases parts with
  | nil => exact absurd rfl hd.ne_nil
  | cons p parts =>
    obtain ⟨c, tail, hc, ho⟩ := SimpleKind.opens_text (hd.parts p List.mem_cons_self) (written parts ++ l)
    refine ⟨c, tail, ?_, ho.not_delimiter⟩
    rw [Compound.text_toList, written_cons, List.append_assoc]
    exact hc

/-! ## Separators -/

theorem Combinator.ofSymbol?_eq_some {k : Combinator} :
    Combinator.ofSymbol? c = some k ↔ k.symbol? = some c := by
  constructor
  · intro h
    simpa using List.find?_some h
  · intro h
    cases k with
    | descendant => cases h
    | _ =>
      obtain rfl := Option.some.inj h
      rfl

theorem Separator.ofSymbol?_eq_some {sep : Separator} :
    Separator.ofSymbol? c = some sep ↔ sep.symbol? = some c := by
  rw [Separator.ofSymbol?]
  split_ifs with hc
  · constructor
    · intro h
      obtain rfl := Option.some.inj h
      rw [hc]
      rfl
    · intro h
      cases sep with
      | comma => rfl
      | combinator k => cases k <;> (rw [hc] at h; exact absurd h (by decide))
  · rw [Option.map_eq_some_iff]
    constructor
    · rintro ⟨k, hk, rfl⟩
      exact Combinator.ofSymbol?_eq_some.mp hk
    · intro h
      cases sep with
      | comma => exact absurd (Option.some.inj h).symm hc
      | combinator k => exact ⟨k, Combinator.ofSymbol?_eq_some.mpr h, rfl⟩

theorem Separator.symbol?_eq_none {sep : Separator} :
    sep.symbol? = none ↔ sep = .combinator .descendant := by
  cases sep with
  | comma => simp [symbol?]
  | combinator k => cases k <;> simp [symbol?, Combinator.symbol?]

theorem blanks_takeWhile (cs : List Char) : Blanks (cs.takeWhile isBlank) := fun c hc =>
  List.all_eq_true.mp List.all_takeWhile c hc

theorem readSeparator_sound {sep : Separator} (h : readSeparator cs = some (sep, rest)) :
    (∃ u, sep.Renders u ∧ cs = u ++ rest) ∧ (∀ c ∈ rest.head?, isBlank c = false) ∧
      (sep.symbol? = none → ∃ c ∈ rest.head?, ∀ sep : Separator, sep.symbol? ≠ some c) := by
  rw [readSeparator] at h
  split at h
  · cases h
  · rename_i c tail hd
    have hcs := List.takeWhile_append_dropWhile (p := isBlank) (l := cs)
    split at h
    · rename_i sep' hs
      obtain ⟨rfl, rfl⟩ := Prod.mk.inj (Option.some.inj h)
      have hs := Separator.ofSymbol?_eq_some.mp hs
      refine ⟨⟨cs.takeWhile isBlank ++ c :: tail.takeWhile isBlank, ?_, ?_⟩,
        not_head_dropWhile _ _, fun hn => absurd (hn.symm.trans hs) (by simp)⟩
      · rw [Separator.Renders, hs]
        exact ⟨_, _, blanks_takeWhile cs, blanks_takeWhile tail, rfl⟩
      · rw [List.append_assoc, List.cons_append, List.takeWhile_append_dropWhile, ← hd, hcs]
    · rename_i hs
      rw [Option.ite_none_left_eq_some] at h
      obtain ⟨hne, h⟩ := h
      obtain ⟨rfl, rfl⟩ := Prod.mk.inj (Option.some.inj h)
      refine ⟨⟨cs.takeWhile isBlank, ⟨blanks_takeWhile cs, by simpa using hne⟩,
        by rw [← hd, hcs]⟩, ?_, ?_⟩
      · rw [← hd]
        exact not_head_dropWhile _ _
      · refine fun _ => ⟨c, rfl, fun sep hsep => ?_⟩
        rw [Separator.ofSymbol?_eq_some.mpr hsep] at hs
        cases hs

theorem readSeparator_complete {sep : Separator} {u : List Char} (hu : sep.Renders u)
    (hrest : ∀ c ∈ rest.head?, isBlank c = false)
    (hnone : sep.symbol? = none → ∃ c ∈ rest.head?, ∀ sep : Separator, sep.symbol? ≠ some c) :
    readSeparator (u ++ rest) = some (sep, rest) := by
  cases hs : sep.symbol? with
  | some c =>
    rw [Separator.Renders, hs] at hu
    obtain ⟨v, w, hv, hw, rfl⟩ := hu
    have hc : ∀ d ∈ (c :: (w ++ rest)).head?, isBlank d = false := by
      intro d hd
      obtain rfl := Option.some.inj hd
      exact Separator.isBlank_symbol hs
    rw [List.append_assoc, List.cons_append, readSeparator]
    simp only [dropWhile_append_stop hv hc, Separator.ofSymbol?_eq_some.mpr hs,
      dropWhile_append_stop hw hrest]
  | none =>
    rw [Separator.Renders, hs] at hu
    obtain ⟨c, hc, hsym⟩ := hnone hs
    cases rest with
    | nil => cases hc
    | cons d tail =>
      obtain rfl := Option.some.inj hc
      have hno : Separator.ofSymbol? d = none := by
        cases ho : Separator.ofSymbol? d with
        | none => rfl
        | some sep' => exact absurd (Separator.ofSymbol?_eq_some.mp ho) (hsym sep')
      rw [readSeparator]
      simp only [dropWhile_append_stop hu.1 hrest, hno, takeWhile_append_stop hu.1 hrest,
        List.isEmpty_iff, if_neg hu.2, Separator.symbol?_eq_none.mp hs]

/-- **A separator is read with all its blanks.** -/
theorem readSeparator_eq_some {sep : Separator} : readSeparator cs = some (sep, rest) ↔
    (∃ u, sep.Renders u ∧ cs = u ++ rest) ∧ (∀ c ∈ rest.head?, isBlank c = false) ∧
      (sep.symbol? = none → ∃ c ∈ rest.head?, ∀ sep : Separator, sep.symbol? ≠ some c) := by
  refine ⟨readSeparator_sound, ?_⟩
  rintro ⟨⟨u, hu, rfl⟩, hrest, hnone⟩
  exact readSeparator_complete hu hrest hnone

theorem Separator.Renders.delimits {sep : Separator} {u : List Char} (h : sep.Renders u)
    (l : List Char) : Delimits (u ++ l) := by
  intro c hc
  rw [Separator.Renders] at h
  cases hs : sep.symbol? with
  | some d =>
    rw [hs] at h
    obtain ⟨v, w, hv, -, rfl⟩ := h
    cases v with
    | nil =>
      obtain rfl := Option.some.inj hc
      exact .inr ⟨sep, hs⟩
    | cons b v =>
      obtain rfl := Option.some.inj hc
      exact .inl (hv b List.mem_cons_self)
  | none =>
    rw [hs] at h
    cases u with
    | nil => exact absurd rfl h.2
    | cons b u =>
      obtain rfl := Option.some.inj hc
      exact .inl (h.1 b List.mem_cons_self)

/-! ## Links -/

theorem readLink_eq_some {link : Separator × Compound} : readLink cs = some (link, rest) ↔
    ∃ mid, readSeparator cs = some (link.1, mid) ∧ readCompound mid = some (link.2, rest) := by
  rw [readLink]
  cases hs : readSeparator cs with
  | none => simp
  | some s =>
    obtain ⟨sep, mid⟩ := s
    simp only [Reader.map_eq_some]
    constructor
    · rintro ⟨d, hd, rfl⟩
      exact ⟨mid, rfl, hd⟩
    · rintro ⟨mid', he, hd⟩
      obtain ⟨rfl, rfl⟩ := Prod.mk.inj (Option.some.inj he)
      exact ⟨link.2, hd, rfl⟩

theorem readLinks_sound {links : List (Separator × Compound)}
    (h : readLink.many readLink_shrinks cs = (links, [])) :
    RendersLinks links cs ∧ ∀ l ∈ links, l.2.WellFormed := by
  induction links generalizing cs with
  | nil => exact ⟨(Reader.many_eq_nil.mp h).2.symm, by simp⟩
  | cons l links ih =>
    obtain ⟨mid, hl, hm⟩ := Reader.many_eq_cons.mp h
    obtain ⟨mid', hs, hc⟩ := readLink_eq_some.mp hl
    obtain ⟨⟨u, hu, rfl⟩, -⟩ := readSeparator_eq_some.mp hs
    obtain ⟨hw, rfl⟩ := readCompound_sound hc
    obtain ⟨hlinks, hall⟩ := ih hm
    exact ⟨⟨u, mid, hu, hlinks, rfl⟩, List.forall_mem_cons.mpr ⟨hw, hall⟩⟩

theorem readLinks_complete {links : List (Separator × Compound)} (h : RendersLinks links cs)
    (hw : ∀ l ∈ links, l.2.WellFormed) :
    readLink.many readLink_shrinks cs = (links, []) ∧ Delimits cs := by
  induction links generalizing cs with
  | nil =>
    obtain rfl : cs = [] := h
    exact ⟨Reader.many_eq_nil.mpr ⟨rfl, rfl⟩, fun c hc => by cases hc⟩
  | cons l links ih =>
    obtain ⟨sep, d⟩ := l
    obtain ⟨u, v, hu, hv, rfl⟩ := h
    obtain ⟨hd, hw⟩ := List.forall_mem_cons.mp hw
    obtain ⟨hmany, hdelim⟩ := ih hv hw
    obtain ⟨c, tail, hc, hblank, hsym⟩ := hd.head v
    refine ⟨Reader.many_eq_cons.mpr ⟨v, readLink_eq_some.mpr
      ⟨_, readSeparator_eq_some.mpr ⟨⟨u, hu, rfl⟩, ?_, ?_⟩, readCompound_complete hd hdelim⟩, hmany⟩,
      hu.delimits _⟩
    · intro b hb
      rw [hc] at hb
      obtain rfl := Option.some.inj hb
      exact hblank
    · exact fun _ => ⟨c, by rw [hc]; rfl, hsym⟩

/-! ## Selectors -/

/-- **Texts without outer blanks are read as they are written.** -/
theorem Selector.read?_eq_some {s : Selector} :
    Selector.read? cs = some s ↔ s.WellFormed ∧ s.Renders cs := by
  constructor
  · intro h
    rw [Selector.read?] at h
    split at h
    · cases h
    · rename_i d mid hd
      split at h
      · rename_i links hm
        obtain rfl := Option.some.inj h
        obtain ⟨hw, rfl⟩ := readCompound_sound hd
        obtain ⟨hlinks, hall⟩ := readLinks_sound hm
        exact ⟨wellFormed_ofLinks.mpr ⟨hw, hall⟩, renders_ofLinks.mpr ⟨mid, hlinks, rfl⟩⟩
      · cases h
  · rintro ⟨hw, hr⟩
    obtain ⟨links, hs⟩ := s.exists_ofLinks
    rw [← hs, wellFormed_ofLinks] at hw
    rw [← hs, renders_ofLinks] at hr
    obtain ⟨v, hv, rfl⟩ := hr
    obtain ⟨hmany, hdelim⟩ := readLinks_complete hv hw.2
    rw [read?, readCompound_complete hw.1 hdelim]
    simp only [hmany, hs]

/-! ## Outer blanks -/

theorem trim_append {u v w : List Char} (hu : Blanks u) (hv : Blanks v)
    (hfirst : ∀ c ∈ w.head?, isBlank c = false) (hlast : ∀ c ∈ w.getLast?, isBlank c = false) :
    trim (u ++ (w ++ v)) = w := by
  rw [trim]
  cases w with
  | nil =>
    have huv : ∀ c ∈ u ++ v, isBlank c = true := fun c hc =>
      (List.mem_append.mp hc).elim (hu c) (hv c)
    rw [List.nil_append, ← List.append_nil (u ++ v), dropWhile_append_stop huv (by simp)]
    rfl
  | cons c w =>
    have hw : ∀ d ∈ (c :: w ++ v).head?, isBlank d = false := hfirst
    rw [dropWhile_append_stop hu hw, List.reverse_append, dropWhile_append_stop
      (fun d hd => hv d (List.mem_reverse.mp hd)), List.reverse_reverse]
    rwa [List.head?_reverse]

theorem exists_trim (cs : List Char) : ∃ u v, Blanks u ∧ Blanks v ∧ cs = u ++ (trim cs ++ v) := by
  refine ⟨cs.takeWhile isBlank, ((cs.dropWhile isBlank).reverse.takeWhile isBlank).reverse,
    blanks_takeWhile cs, fun c hc => blanks_takeWhile _ c (List.mem_reverse.mp hc), ?_⟩
  rw [trim, ← List.reverse_append, List.takeWhile_append_dropWhile, List.reverse_reverse,
    List.takeWhile_append_dropWhile]

theorem IsName.all {start more : Char → Bool} {v : String} (h : IsName start more v)
    (hs : ∀ c, start c = true → more c = true) : ∀ c ∈ v.toList, more c = true := by
  obtain ⟨c, ds, hv, hc, hds⟩ := h
  rw [hv]
  exact List.forall_mem_cons.mpr ⟨hs c hc, hds⟩

theorem IsIdent.last {v : String} (h : IsIdent v) (l : List Char) :
    ∀ c ∈ (l ++ v.toList).getLast?, isBlank c = false := by
  intro c hc
  have hne : v.toList ≠ [] := by
    obtain ⟨d, ds, hv, -⟩ := h
    rw [hv]
    exact List.cons_ne_nil d ds
  rw [List.getLast?_append_of_ne_nil l hne] at hc
  exact isBlank_of_isIdentChar (h.all (fun _ => id) c (List.mem_of_getLast? hc))

theorem Simple.WellFormed.last {p : Simple} (h : p.WellFormed) (l : List Char) :
    ∀ c ∈ (l ++ p.text.toList).getLast?, isBlank c = false := by
  have hend : ∀ {d : Char} {w : List Char}, isBlank d = false →
      ∀ c ∈ (w ++ [d]).getLast?, isBlank c = false := by
    intro d w hd c hc
    rw [List.getLast?_concat] at hc
    obtain rfl := Option.some.inj hc
    exact hd
  cases p with
  | universal => exact hend (by decide)
  | tag v =>
    obtain ⟨d, ds, hv, hd, hds⟩ := h
    refine IsIdent.last ⟨d, ds, hv, ?_, hds⟩ l
    change d.isAlpha = true at hd
    simp [isIdentChar, Char.isAlphanum, hd]
  | attr test =>
    by_cases hop : test.operator = .present
    · rw [text, AttributeTest.text_of_present hop, ← List.cons_append, ← List.append_assoc]
      exact hend (by decide)
    · have he : test.text.toList = ('[' :: (test.name.toList ++ (test.operator.symbol.toList ++
          '"' :: (test.value.toList ++ ['"'])))) ++ [']'] := by
        rw [AttributeTest.text_of_symbol hop]
        simp
      rw [text, he, ← List.append_assoc]
      exact hend (by decide)
  | id v =>
    have he : l ++ (Simple.id v).text.toList = (l ++ ['#']) ++ v.toList := by simp [text]
    rw [he]
    exact IsIdent.last h _
  | classes names =>
    obtain ⟨hne, hnames⟩ := h
    rcases List.eq_nil_or_concat' names with rfl | ⟨front, v, rfl⟩
    · exact absurd rfl hne
    · have he : l ++ (Simple.classes (front ++ [v])).text.toList =
          (l ++ dotted front ++ ['.']) ++ v.toList := by
        rw [text_classes]
        simp [dotted]
      rw [he]
      exact IsIdent.last (hnames v (by simp)) _

theorem Compound.WellFormed.last {d : Compound} (hd : d.WellFormed) (l : List Char) :
    ∀ c ∈ (l ++ d.text.toList).getLast?, isBlank c = false := by
  obtain ⟨parts⟩ := d
  rcases List.eq_nil_or_concat' parts with rfl | ⟨front, p, rfl⟩
  · exact absurd rfl hd.ne_nil
  · have he : l ++ (Compound.mk (front ++ [p])).text.toList =
        (l ++ written front) ++ p.text.toList := by
      rw [Compound.text_toList]
      simp [written]
    rw [he]
    exact (hd.parts p (by simp)).last _

theorem RendersLinks.last {links : List (Separator × Compound)} {d : Compound} {v : List Char}
    (h : RendersLinks links v) (hd : d.WellFormed) (hw : ∀ l ∈ links, l.2.WellFormed)
    (l : List Char) : ∀ c ∈ (l ++ (d.text.toList ++ v)).getLast?, isBlank c = false := by
  induction links generalizing d v l with
  | nil =>
    obtain rfl : v = [] := h
    rw [List.append_nil]
    exact hd.last l
  | cons s links ih =>
    obtain ⟨sep, d'⟩ := s
    obtain ⟨u, x, -, hx, rfl⟩ := h
    obtain ⟨hd', hw⟩ := List.forall_mem_cons.mp hw
    have := ih hx hd' hw (l ++ (d.text.toList ++ u))
    simpa only [List.append_assoc] using this

theorem Selector.Renders.solid {s : Selector} {w : List Char} (h : s.Renders w)
    (hs : s.WellFormed) :
    (∀ c ∈ w.head?, isBlank c = false) ∧ ∀ c ∈ w.getLast?, isBlank c = false := by
  obtain ⟨links, hl⟩ := s.exists_ofLinks
  rw [← hl, wellFormed_ofLinks] at hs
  rw [← hl, renders_ofLinks] at h
  obtain ⟨v, hv, rfl⟩ := h
  refine ⟨?_, hv.last hs.1 hs.2 []⟩
  obtain ⟨c, tail, hc, hblank, -⟩ := hs.1.head v
  rw [hc]
  intro d hd
  obtain rfl := Option.some.inj hd
  exact hblank

/-! ## All texts -/

/-- A text is a written form of a selector with any blanks at its two ends. -/
def Selector.Spells (s : Selector) (text : String) : Prop :=
  ∃ u w v, Blanks u ∧ s.Renders w ∧ Blanks v ∧ text.toList = u ++ (w ++ v)

theorem Selector.parse_eq_ok {s : Selector} {text : String} :
    Selector.parse text = .ok s ↔ Selector.read? (trim text.toList) = some s := by
  rw [Selector.parse]
  cases Selector.read? (trim text.toList) <;> simp

/-- **A text is read exactly when it is a written form.** -/
theorem Selector.read?_trim {s : Selector} {text : String} :
    Selector.read? (trim text.toList) = some s ↔ s.WellFormed ∧ s.Spells text := by
  rw [Selector.read?_eq_some]
  refine and_congr_right fun hs => ⟨fun h => ?_, ?_⟩
  · obtain ⟨u, v, hu, hv, he⟩ := exists_trim text.toList
    exact ⟨u, _, v, hu, h, hv, he⟩
  · rintro ⟨u, w, v, hu, hw, hv, he⟩
    rw [he, trim_append hu hv (hw.solid hs).1 (hw.solid hs).2]
    exact hw

end MarkupQuery
