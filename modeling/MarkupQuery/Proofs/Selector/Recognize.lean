import Mathlib.Tactic.SplitIfs
import MarkupQuery.Proofs.Text.Reader
import MarkupQuery.Selector.Recognize

/-!
# Written forms of simple selectors

Which simple selectors can be written, and what is read where one of them is written.

* `IsIdent`, `AttributeTest.WellFormed`, `Simple.WellFormed`;
* `Simple.Stops`: the text behind a simple selector does not continue it;
* `readOperator_eq_some`, `readTest_eq_some`, `readClasses_eq_some`;
* **`SimpleKind.read_eq_some`**: each kind reads exactly the written forms of its selectors;
* **`SimpleKind.read_unique`**: no text begins with selectors of two kinds.
-/

namespace MarkupQuery

/-! ## Selectors that can be written -/

/-- A text of one or more characters of identifiers. -/
def IsIdent (v : String) : Prop := IsName isIdentChar isIdentChar v

/-- A test that can be written: its name is one, its value has no quotation mark, and a test for
presence has no value. -/
structure AttributeTest.WellFormed (test : AttributeTest) : Prop where
  name : IsName isAttributeStart isAttributeChar test.name
  value : '"' ∉ test.value.toList
  present : test.operator = .present → test.value = ""

namespace Simple

/-- A simple selector that can be written. -/
def WellFormed : Simple → Prop
  | universal => True
  | tag name => IsName (·.isAlpha) isIdentChar name
  | attr test => test.WellFormed
  | id value => IsIdent value
  | classes names => names ≠ [] ∧ ∀ v ∈ names, IsIdent v

/-- The text does not continue a simple selector that stands before it. -/
def Stops (rest : List Char) : Simple → Prop
  | universal | attr _ => True
  | tag _ | id _ => ∀ c ∈ rest.head?, isIdentChar c = false
  | classes _ => (∀ c ∈ rest.head?, isIdentChar c = false) ∧
      ∀ c tail, rest = '.' :: c :: tail → isIdentChar c = false

end Simple

variable {cs rest : List Char} {v : String}

/-! ## Identifiers -/

theorem readIdent_eq_some : readIdent cs = some (v, rest) ↔
    IsIdent v ∧ (∀ c ∈ rest.head?, isIdentChar c = false) ∧ cs = v.toList ++ rest :=
  readName_eq_some

theorem readIdent_eq_none : readIdent cs = none ↔ ∀ c ∈ cs.head?, isIdentChar c = false := by
  cases cs with
  | nil => simp [readIdent, readName]
  | cons c cs => simp [readIdent, readName]

/-! ## Classes -/

/-- Identifiers, each behind a dot. -/
def dotted (names : List String) : List Char := names.flatMap fun v => '.' :: v.toList

theorem text_classes (names : List String) : (Simple.classes names).text.toList = dotted names := by
  rw [Simple.text, String.toList_join, List.flatMap_map, dotted]
  exact congrArg (List.flatMap · names) (funext fun v => by simp)

theorem dotted_append (names names' : List String) :
    dotted (names ++ names') = dotted names ++ dotted names' :=
  List.flatMap_append

theorem stops_dotted {names : List String}
    (hrest : names = [] → ∀ c ∈ rest.head?, isIdentChar c = false) :
    ∀ c ∈ (dotted names ++ rest).head?, isIdentChar c = false := by
  cases names with
  | nil => exact hrest rfl
  | cons v names => exact fun c hc => by obtain rfl := Option.some.inj hc; decide

theorem readDotted_eq_none : (readIdent.after '.') cs = none ↔
    ∀ c tail, cs = '.' :: c :: tail → isIdentChar c = false := by
  cases cs with
  | nil => simp [Reader.after]
  | cons d cs =>
    rw [Reader.after]
    split_ifs with hd
    · rw [readIdent_eq_none, hd]
      cases cs <;> simp
    · simp [hd]

theorem many_readDotted_eq_some {names : List String} :
    (readIdent.after '.').many (readIdent_shrinks.after '.') cs = (names, rest) ↔
      (∀ v ∈ names, IsIdent v) ∧ cs = dotted names ++ rest ∧
        (names ≠ [] → ∀ c ∈ rest.head?, isIdentChar c = false) ∧
        ∀ c tail, rest = '.' :: c :: tail → isIdentChar c = false := by
  induction names generalizing cs with
  | nil =>
    rw [Reader.many_eq_nil, dotted, List.flatMap_nil, List.nil_append]
    constructor
    · rintro ⟨hn, rfl⟩
      exact ⟨by simp, rfl, by simp, readDotted_eq_none.mp hn⟩
    · rintro ⟨-, rfl, -, hn⟩
      exact ⟨readDotted_eq_none.mpr hn, rfl⟩
  | cons v names ih =>
    have hd : dotted (v :: names) = '.' :: (v.toList ++ dotted names) := rfl
    simp only [Reader.many_eq_cons, Reader.after_eq_some, readIdent_eq_some, ih, hd,
      List.forall_mem_cons]
    constructor
    · rintro ⟨mid, ⟨tail, rfl, hv, hmid, rfl⟩, hnames, rfl, hstop, hdot⟩
      refine ⟨⟨hv, hnames⟩, by simp, fun _ => ?_, hdot⟩
      cases names with
      | nil => exact hmid
      | cons w names => exact hstop (by simp)
    · rintro ⟨⟨hv, hnames⟩, rfl, hstop, hdot⟩
      exact ⟨dotted names ++ rest, ⟨_, rfl, hv, stops_dotted fun _ => hstop (by simp), by simp⟩,
        hnames, rfl, fun _ => hstop (by simp), hdot⟩

theorem readClasses_eq_some {names : List String} : readClasses cs = some (names, rest) ↔
    (names ≠ [] ∧ ∀ v ∈ names, IsIdent v) ∧ (Simple.classes names).Stops rest ∧
      cs = dotted names ++ rest := by
  rw [readClasses, Reader.many1_eq_some, many_readDotted_eq_some, Simple.Stops]
  constructor
  · rintro ⟨hne, hnames, hcs, hstop, hdot⟩
    exact ⟨⟨hne, hnames⟩, ⟨hstop hne, hdot⟩, hcs⟩
  · rintro ⟨⟨hne, hnames⟩, ⟨hstop, hdot⟩, hcs⟩
    exact ⟨hne, hnames, hcs, fun _ => hstop, hdot⟩

/-! ## Attribute tests -/

theorem AttributeOperator.ofSymbol?_eq_some {op : AttributeOperator} {s : String} :
    ofSymbol? s = some op ↔ op ≠ .present ∧ op.symbol = s := by
  constructor
  · intro h
    have hmem := List.mem_of_find?_eq_some h
    have hsym := List.find?_some h
    refine ⟨?_, by simpa using hsym⟩
    rintro rfl
    exact absurd hmem (by decide)
  · rintro ⟨hop, rfl⟩
    cases op with
    | present => exact absurd rfl hop
    | _ => rfl

theorem readOperator_eq_some {op : AttributeOperator} : readOperator cs = some (op, rest) ↔
    op ≠ .present ∧ cs = op.symbol.toList ++ rest := by
  constructor
  · intro h
    unfold readOperator at h
    split at h
    · obtain ⟨rfl, rfl⟩ := Prod.mk.inj (Option.some.inj h)
      exact ⟨by decide, rfl⟩
    · obtain ⟨op', hop, he⟩ := Option.map_eq_some_iff.mp h
      obtain ⟨rfl, rfl⟩ := Prod.mk.inj he
      obtain ⟨hp, hs⟩ := AttributeOperator.ofSymbol?_eq_some.mp hop
      exact ⟨hp, by rw [hs, String.toList_ofList]; rfl⟩
    · cases h
  · rintro ⟨hop, rfl⟩
    cases op with
    | present => exact absurd rfl hop
    | _ => rfl

theorem readQuoted_eq_some : readQuoted cs = some (v, rest) ↔
    '"' ∉ v.toList ∧ cs = '"' :: (v.toList ++ '"' :: ']' :: rest) := by
  constructor
  · intro h
    unfold readQuoted at h
    split at h
    · split at h
      · rename_i hu
        obtain ⟨rfl, rfl⟩ := Prod.mk.inj (Option.some.inj h)
        obtain ⟨hv, rfl⟩ := readUntil_eq_some.mp hu
        exact ⟨hv, rfl⟩
      · cases h
    · cases h
  · rintro ⟨hv, rfl⟩
    simp only [readQuoted, readUntil_eq_some.mpr ⟨hv, rfl⟩]

namespace AttributeTest

variable {test : AttributeTest}

theorem text_of_present (h : test.operator = .present) :
    test.text.toList = '[' :: (test.name.toList ++ [']']) := by
  rw [text, h]
  simp

theorem text_of_symbol (h : test.operator ≠ .present) :
    test.text.toList = '[' :: (test.name.toList ++ (test.operator.symbol.toList ++
      '"' :: (test.value.toList ++ ['"', ']']))) := by
  rw [text]
  split
  · exact absurd ‹_› h
  · simp

theorem WellFormed.eq_present (h : test.WellFormed) (hop : test.operator = .present) :
    .present test.name = test := by
  have hvalue := h.present hop
  obtain ⟨name, op, value⟩ := test
  obtain rfl : op = .present := hop
  obtain rfl : value = "" := hvalue
  rfl

theorem head_symbol {op : AttributeOperator} (h : op ≠ .present) (l : List Char) :
    ∃ c tail, op.symbol.toList ++ l = c :: tail ∧ isAttributeChar c = false ∧ c ≠ ']' := by
  cases op with
  | present => exact absurd rfl h
  | _ => exact ⟨_, _, rfl, by decide, by decide⟩

end AttributeTest

theorem readTest_sound {test : AttributeTest} (h : readTest cs = some (test, rest)) :
    test.WellFormed ∧ cs = test.text.toList ++ rest := by
  unfold readTest at h
  split at h
  · rename_i tail
    split at h
    · rename_i name rest' hn
      obtain ⟨rfl, rfl⟩ := Prod.mk.inj (Option.some.inj h)
      obtain ⟨hname, -, rfl⟩ := readName_eq_some.mp hn
      refine ⟨⟨hname, by simp [AttributeTest.present], fun _ => rfl⟩, ?_⟩
      rw [AttributeTest.text_of_present rfl]
      simp [AttributeTest.present]
    · rename_i name mid _ hn
      obtain ⟨hname, -, rfl⟩ := readName_eq_some.mp hn
      split at h
      · rename_i op tail ho
        obtain ⟨hop, rfl⟩ := readOperator_eq_some.mp ho
        obtain ⟨v, hv, rfl⟩ := Reader.map_eq_some.mp h
        obtain ⟨hquote, rfl⟩ := readQuoted_eq_some.mp hv
        refine ⟨⟨hname, hquote, fun e => absurd e hop⟩, ?_⟩
        rw [AttributeTest.text_of_symbol hop]
        simp
      · cases h
    · cases h
  · cases h

theorem readTest_present {test : AttributeTest} (h : test.WellFormed)
    (hop : test.operator = .present) (rest : List Char) :
    readTest (test.text.toList ++ rest) = some (test, rest) := by
  have hn : readName isAttributeStart isAttributeChar (test.name.toList ++ ']' :: rest) =
      some (test.name, ']' :: rest) :=
    readName_eq_some.mpr ⟨h.name, fun c hc => by obtain rfl := Option.some.inj hc; decide, rfl⟩
  rw [AttributeTest.text_of_present hop, List.cons_append, List.append_assoc]
  simp only [readTest, List.cons_append, List.nil_append, hn, h.eq_present hop]

theorem readTest_symbol {test : AttributeTest} (h : test.WellFormed)
    (hop : test.operator ≠ .present) (rest : List Char) :
    readTest (test.text.toList ++ rest) = some (test, rest) := by
  obtain ⟨c, tail, hc, hstop, hbracket⟩ := AttributeTest.head_symbol hop
    ('"' :: (test.value.toList ++ '"' :: ']' :: rest))
  have hn : readName isAttributeStart isAttributeChar (test.name.toList ++ c :: tail) =
      some (test.name, c :: tail) :=
    readName_eq_some.mpr ⟨h.name, fun d hd => by obtain rfl := Option.some.inj hd; exact hstop, rfl⟩
  have ho : readOperator (c :: tail) = some (test.operator,
      '"' :: (test.value.toList ++ '"' :: ']' :: rest)) :=
    readOperator_eq_some.mpr ⟨hop, hc.symm⟩
  have hq : readQuoted ('"' :: (test.value.toList ++ '"' :: ']' :: rest)) =
      some (test.value, rest) := readQuoted_eq_some.mpr ⟨h.value, rfl⟩
  have htext : test.text.toList ++ rest = '[' :: (test.name.toList ++ c :: tail) := by
    rw [AttributeTest.text_of_symbol hop, ← hc]
    simp
  rw [htext, readTest, hn]
  split
  · rename_i he
    obtain ⟨-, he⟩ := Prod.mk.inj (Option.some.inj he)
    exact absurd (List.cons.inj he).1 hbracket
  · rename_i he
    obtain ⟨rfl, rfl⟩ := Prod.mk.inj (Option.some.inj he)
    rw [ho]
    exact Reader.map_eq_some.mpr ⟨_, hq, rfl⟩
  · rename_i he
    cases he

theorem readTest_eq_some {test : AttributeTest} : readTest cs = some (test, rest) ↔
    test.WellFormed ∧ cs = test.text.toList ++ rest := by
  refine ⟨readTest_sound, ?_⟩
  rintro ⟨h, rfl⟩
  by_cases hop : test.operator = .present
  · exact readTest_present h hop rest
  · exact readTest_symbol h hop rest

/-! ## Kinds -/

namespace SimpleKind

/-- A character that begins a simple selector of a kind. -/
def Opens (c : Char) : SimpleKind → Prop
  | universal => c = '*'
  | tag => c.isAlpha = true
  | attr => c = '['
  | id => c = '#'
  | classes => c = '.'

theorem opens_unique {c : Char} {k k' : SimpleKind} (h : k.Opens c) (h' : k'.Opens c) : k = k' := by
  cases k <;> cases k' <;> simp only [Opens] at h h' <;>
    first | rfl | (subst h; first | exact absurd h' (by decide)) | (subst h'; exact absurd h (by decide))

theorem map_eq_some_of_kind {α : Type} {r : Reader α} {f : α → Simple} {k : SimpleKind} {s : Simple}
    (hk : ∀ s : Simple, s.kind = k ↔ ∃ a, f a = s)
    (hr : ∀ a, r cs = some (a, rest) ↔
      (f a).WellFormed ∧ (f a).Stops rest ∧ cs = (f a).text.toList ++ rest) :
    r.map f cs = some (s, rest) ↔
      s.kind = k ∧ s.WellFormed ∧ s.Stops rest ∧ cs = s.text.toList ++ rest := by
  rw [Reader.map_eq_some, hk]
  constructor
  · rintro ⟨a, ha, rfl⟩
    exact ⟨⟨a, rfl⟩, (hr a).mp ha⟩
  · rintro ⟨⟨a, rfl⟩, ha⟩
    exact ⟨a, (hr a).mpr ha, rfl⟩

/-- **Each kind reads exactly the written forms of its selectors.** -/
theorem read_eq_some {k : SimpleKind} {s : Simple} : k.read cs = some (s, rest) ↔
    s.kind = k ∧ s.WellFormed ∧ s.Stops rest ∧ cs = s.text.toList ++ rest := by
  cases k with
  | universal =>
    constructor
    · intro h
      simp only [read] at h
      split at h
      · obtain ⟨rfl, rfl⟩ := Prod.mk.inj (Option.some.inj h)
        exact ⟨rfl, trivial, trivial, rfl⟩
      · cases h
    · rintro ⟨hk, -, -, rfl⟩
      cases s with
      | universal => rfl
      | _ => cases hk
  | tag =>
    refine map_eq_some_of_kind (fun s => by cases s <;> simp [Simple.kind]) fun v => ?_
    exact readName_eq_some
  | attr =>
    refine map_eq_some_of_kind (fun s => by cases s <;> simp [Simple.kind]) fun test => ?_
    rw [readTest_eq_some]
    exact and_congr_right fun _ => (and_iff_right trivial).symm
  | id =>
    refine map_eq_some_of_kind (fun s => by cases s <;> simp [Simple.kind]) fun v => ?_
    rw [Reader.after_eq_some]
    simp only [readIdent_eq_some, Simple.WellFormed, Simple.Stops, Simple.text]
    constructor
    · rintro ⟨tail, rfl, hw, hs, rfl⟩
      exact ⟨hw, hs, by simp⟩
    · rintro ⟨hw, hs, rfl⟩
      exact ⟨v.toList ++ rest, by simp, hw, hs, rfl⟩
  | classes =>
    refine map_eq_some_of_kind (fun s => by cases s <;> simp [Simple.kind]) fun names => ?_
    rw [readClasses_eq_some, text_classes]
    rfl

theorem opens_text {s : Simple} (h : s.WellFormed) (l : List Char) :
    ∃ c tail, s.text.toList ++ l = c :: tail ∧ s.kind.Opens c := by
  cases s with
  | universal => exact ⟨'*', l, rfl, rfl⟩
  | tag v =>
    obtain ⟨c, ds, hv, hc, -⟩ := h
    exact ⟨c, ds ++ l, by rw [Simple.text, hv, List.cons_append], hc⟩
  | attr test =>
    by_cases hop : test.operator = .present
    · exact ⟨'[', _, by rw [Simple.text, AttributeTest.text_of_present hop, List.cons_append], rfl⟩
    · exact ⟨'[', _, by rw [Simple.text, AttributeTest.text_of_symbol hop, List.cons_append], rfl⟩
  | id v => exact ⟨'#', v.toList ++ l, by simp [Simple.text], rfl⟩
  | classes names =>
    cases names with
    | nil => exact absurd rfl h.1
    | cons v names =>
      exact ⟨'.', v.toList ++ dotted names ++ l, by rw [text_classes]; simp [dotted], rfl⟩

/-- **No text begins with selectors of two kinds.** -/
theorem read_unique {k k' : SimpleKind} (h : (k.read cs).isSome = true)
    (h' : (k'.read cs).isSome = true) : k = k' := by
  obtain ⟨⟨s, rest⟩, hs⟩ := Option.isSome_iff_exists.mp h
  obtain ⟨⟨s', rest'⟩, hs'⟩ := Option.isSome_iff_exists.mp h'
  obtain ⟨rfl, hw, -, rfl⟩ := read_eq_some.mp hs
  obtain ⟨rfl, hw', -, he⟩ := read_eq_some.mp hs'
  obtain ⟨c, tail, hc, ho⟩ := opens_text hw rest
  obtain ⟨c', tail', hc', ho'⟩ := opens_text hw' rest'
  obtain rfl : c = c' := (List.cons.inj (hc.symm.trans (he.trans hc'))).1
  exact opens_unique ho ho'

end SimpleKind

end MarkupQuery
