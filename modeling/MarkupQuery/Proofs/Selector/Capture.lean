import MarkupQuery.Proofs.Selector.Longest
import MarkupQuery.Proofs.Selector.Pattern
import MarkupQuery.Selector.Capture

/-!
# Selectors as captures

Reading a simple selector from left to right and taking it apart by a regular expression with groups
come to the same.

* `CapturePattern.captures_sound`: a match is a front of the text, and one of the expression
  without groups;
* `Capture.Greedy`: the longest match comes first, and no shorter one can be gone on from;
* `CapturePattern.exists_capture_test`, `CapturePattern.head?_captures_classes`: attribute tests and
  runs of classes;
* `SimpleKind.exists_capture`: the preferred match, kind by kind, and what its groups took;
* **`SimpleKind.recognize?_eq_capture?`**: both ways recognize the same;
* **`SimpleKind.recognize?_spec`**: one kind at most, the longest written form, and none missed.
-/

namespace MarkupQuery

variable {cs rest : List Char} {p : Char → Bool} {m m' : Capture} {ms : List Capture}

/-! ## Matches -/

theorem manyCaptures_sound {round : List Char → List Capture} {P : List Char → Prop}
    (hround : ∀ {cs m}, m ∈ round cs → P m.text ∧ m.text ++ m.rest = cs)
    (hm : m ∈ manyCaptures round cs) :
    (∃ l : List (List Char), (∀ u ∈ l, P u) ∧ m.text = l.flatten) ∧ m.text ++ m.rest = cs := by
  induction cs using manyCaptures.induct generalizing m with
  | case1 cs ih =>
    rw [manyCaptures, List.mem_append, List.mem_flatMap, List.mem_singleton] at hm
    rcases hm with ⟨m₁, hm₁, hm⟩ | rfl
    · split at hm
      · rename_i hlt
        obtain ⟨m₂, hm₂, rfl⟩ := List.mem_map.mp hm
        obtain ⟨hP, rfl⟩ := hround hm₁
        obtain ⟨⟨l, hl, ht⟩, hrest⟩ := ih m₁ hlt hm₂
        refine ⟨⟨m₁.text :: l, List.forall_mem_cons.mpr ⟨hP, hl⟩, ?_⟩, ?_⟩
        · rw [List.flatten_cons, ← ht]
          rfl
        · rw [← hrest, ← List.append_assoc]
          rfl
      · exact absurd hm List.not_mem_nil
    · exact ⟨⟨[], by simp, rfl⟩, rfl⟩

/-- **A match is a front of the text**, and one of the expression. -/
theorem CapturePattern.captures_sound {e : CapturePattern} (hm : m ∈ e.captures cs) :
    e.plain.Matches m.text ∧ m.text ++ m.rest = cs := by
  induction e generalizing cs m with
  | char p =>
    cases cs with
    | nil => exact absurd hm List.not_mem_nil
    | cons c cs =>
      rw [captures, List.mem_ite_nil_right, List.mem_singleton] at hm
      obtain ⟨hc, rfl⟩ := hm
      exact ⟨⟨c, hc, rfl⟩, rfl⟩
  | seq a b iha ihb =>
    obtain ⟨m₁, hm₁, hm⟩ := List.mem_flatMap.mp hm
    obtain ⟨m₂, hm₂, rfl⟩ := List.mem_map.mp hm
    obtain ⟨ha, rfl⟩ := iha hm₁
    obtain ⟨hb, hrest⟩ := ihb hm₂
    exact ⟨⟨_, _, ha, hb, rfl⟩, by rw [← hrest, ← List.append_assoc]; rfl⟩
  | opt a iha =>
    rcases List.mem_append.mp hm with hm | hm
    · exact ⟨.inr (iha hm).1, (iha hm).2⟩
    · rw [List.mem_singleton.mp hm]
      exact ⟨.inl rfl, rfl⟩
  | many a iha => exact manyCaptures_sound iha hm
  | group i a iha =>
    obtain ⟨m', hm', rfl⟩ := List.mem_map.mp hm
    have ha := iha hm'
    exact ha

theorem SimpleKind.plain_capturePattern (k : SimpleKind) :
    k.capturePattern.plain = k.expression := by
  cases k <;> rfl

theorem SimpleKind.captures_eq_nil {k : SimpleKind} (h : k.read cs = none) :
    k.capturePattern.captures cs = [] := by
  refine List.eq_nil_iff_forall_not_mem.mpr fun m hm => ?_
  obtain ⟨hmatch, hcs⟩ := CapturePattern.captures_sound hm
  rw [plain_capturePattern, matches_expression] at hmatch
  obtain ⟨s, ⟨rfl, hw⟩, ht⟩ := hmatch
  obtain ⟨s', -, tail, hr, -⟩ := exists_read hw m.rest
  rw [← ht, hcs, h] at hr
  cases hr

/-! ## The preferred match -/

/-- The given match comes first. Behind every other one stands a character of the class. -/
def Capture.Greedy (p : Char → Bool) (ms : List Capture) (m : Capture) : Prop :=
  ∃ others, ms = m :: others ∧ ∀ m' ∈ others, ∃ c tail, m'.rest = c :: tail ∧ p c = true

namespace Capture.Greedy

variable (hg : Capture.Greedy p ms m)

include hg

theorem head? : ms.head? = some m := by
  obtain ⟨others, rfl, -⟩ := hg
  rfl

theorem map {f : Capture → Capture} (hf : ∀ m, (f m).rest = m.rest) :
    Greedy p (ms.map f) (f m) := by
  obtain ⟨others, rfl, ho⟩ := hg
  refine ⟨others.map f, rfl, fun m' hm' => ?_⟩
  obtain ⟨m'', hm'', rfl⟩ := List.mem_map.mp hm'
  rw [hf]
  exact ho m'' hm''

theorem flatMap_eq {f : Capture → List Capture}
    (hf : ∀ {m' c tail}, m'.rest = c :: tail → p c = true → f m' = []) : ms.flatMap f = f m := by
  obtain ⟨others, rfl, ho⟩ := hg
  have hnone : others.flatMap f = [] := List.flatMap_eq_nil_iff.mpr fun m' hm' => by
    obtain ⟨c, tail, hrest, hc⟩ := ho m' hm'
    exact hf hrest hc
  rw [List.flatMap_cons, hnone, List.append_nil]

theorem head?_flatMap {f : Capture → List Capture} (hf : (f m).head? = some m') :
    (ms.flatMap f).head? = some m' := by
  obtain ⟨others, rfl, -⟩ := hg
  rw [List.flatMap_cons, List.head?_append, hf, Option.some_or]

end Capture.Greedy

namespace CapturePattern

theorem captures_literal (c : Char) (cs : List Char) :
    (literal c).captures (c :: cs) = [.one c cs] := by
  simp [literal, captures]

theorem captures_literal_of_ne {c d : Char} (h : d ≠ c) (cs : List Char) :
    (literal c).captures (d :: cs) = [] := by
  simp [literal, captures, h]

theorem captures_seq_literal (c : Char) (b : CapturePattern) (cs : List Char) :
    (seq (literal c) b).captures (c :: cs) = (b.captures cs).map (Capture.one c cs).andThen := by
  rw [captures, captures_literal, List.flatMap_singleton]
  rfl

theorem captures_many {a : CapturePattern} {cs : List Char}
    (ha : ∀ m ∈ a.captures cs, m.text ≠ []) :
    (many a).captures cs = (many1 a).captures cs ++ [.nothing cs] := by
  have hlt : ∀ m ∈ a.captures cs, m.rest.length < cs.length := by
    intro m hm
    have hlen := congrArg List.length (captures_sound hm).2
    have hpos := List.length_pos_iff.mpr (ha m hm)
    rw [List.length_append] at hlen
    omega
  rw [captures, manyCaptures, many1, captures]
  refine congrArg (· ++ _) (List.flatMap_congr fun m hm => ?_)
  rw [dif_pos (hlt m hm), captures]

theorem greedy_many_char (p : Char → Bool) (cs : List Char) :
    Capture.Greedy p ((many (char p)).captures cs)
      ⟨cs.takeWhile p, [], cs.dropWhile p⟩ := by
  have htakes : ∀ {cs}, ∀ m ∈ (char p).captures cs, m.text ≠ [] := by
    intro cs m hm
    obtain ⟨c, -, ht⟩ := (captures_sound hm).1
    rw [ht]
    exact List.cons_ne_nil _ _
  induction cs with
  | nil => exact ⟨[], by rw [captures_many htakes]; rfl, by simp⟩
  | cons c cs ih =>
    rw [captures_many htakes, many1, captures, captures]
    by_cases hc : p c = true
    · obtain ⟨others, hms, ho⟩ := ih
      rw [if_pos hc, List.flatMap_singleton, List.takeWhile_cons_of_pos hc,
        List.dropWhile_cons_of_pos hc]
      refine ⟨others.map (Capture.one c cs).andThen ++ [.nothing (c :: cs)], ?_, ?_⟩
      · simp only [Capture.one, hms]
        rfl
      -- any other match leaves a character of the class behind
      · intro m hm
        rcases List.mem_append.mp hm with hm | hm
        · obtain ⟨m', hm', rfl⟩ := List.mem_map.mp hm
          exact ho m' hm'
        · rw [List.mem_singleton.mp hm]
          exact ⟨c, cs, rfl, hc⟩
    · refine ⟨[], ?_, by simp⟩
      rw [if_neg hc, List.takeWhile_cons_of_neg hc, List.dropWhile_cons_of_neg hc]
      rfl

theorem greedy_run {l : List Char} (hl : ∀ c ∈ l, p c = true)
    (hrest : ∀ c ∈ rest.head?, p c = false) :
    Capture.Greedy p ((many (char p)).captures (l ++ rest)) ⟨l, [], rest⟩ := by
  have hg := greedy_many_char p (l ++ rest)
  rwa [takeWhile_append_stop hl hrest, dropWhile_append_stop hl hrest] at hg

theorem greedy_name {start more : Char → Bool} {v : String} (hv : IsName start more v)
    (hrest : ∀ c ∈ rest.head?, more c = false) :
    Capture.Greedy more ((name start more).captures (v.toList ++ rest))
      ⟨v.toList, [], rest⟩ := by
  obtain ⟨c, ds, hv, hc, hds⟩ := hv
  rw [hv, List.cons_append, name, captures, captures, if_pos hc, List.flatMap_singleton]
  exact (greedy_run hds hrest).map fun _ => rfl

/-! ## Attribute tests -/

theorem captures_operator {op : AttributeOperator} (hop : op ≠ .present) (cs : List Char) :
    AttributeOperator.capturePattern.captures (op.symbol.toList ++ '"' :: cs) =
      [⟨op.symbol.toList, [], '"' :: cs⟩] := by
  cases op with
  | present => exact absurd rfl hop
  | _ => rfl

theorem captures_operator_eq_nil {c : Char} (hc : isAttributeChar c = true ∨ c = ']')
    (cs : List Char) : AttributeOperator.capturePattern.captures (c :: cs) = [] := by
  have hsymbols : (['~', '|', '^', '$', '*', '='].all fun d => !isAttributeChar d && d != ']') =
      true := by
    decide
  have hne : ∀ d ∈ ['~', '|', '^', '$', '*', '='], c ≠ d := by
    rintro d hd rfl
    have hd := List.all_eq_true.mp hsymbols c hd
    rcases hc with hc | rfl
    · simp [hc] at hd
    · simp at hd
  simp only [List.forall_mem_cons] at hne
  simp [AttributeOperator.capturePattern, captures, literal, Capture.nothing, hne]

theorem captures_value {v : String} (hv : '"' ∉ v.toList) (cs : List Char) :
    (seq (group 3 (many (char (· ≠ '"')))) (literal '"')).captures (v.toList ++ '"' :: cs) =
      [⟨v.toList ++ ['"'], [(3, v.toList)], cs⟩] := by
  have hg : Capture.Greedy (· ≠ '"') ((group 3 (many (char (· ≠ '"')))).captures
      (v.toList ++ '"' :: cs)) ⟨v.toList, [(3, v.toList)], '"' :: cs⟩ := by
    refine (greedy_run ?_ ?_).map fun _ => rfl
    · exact fun c hc => decide_eq_true fun e => hv (e ▸ hc)
    · simp
  rw [captures, hg.flatMap_eq, captures_literal]
  · rfl
  · intro m c tail hrest hc
    rw [hrest, captures_literal_of_ne (of_decide_eq_true hc)]
    rfl

theorem captures_test {op : AttributeOperator} {v : String} (hop : op ≠ .present)
    (hv : '"' ∉ v.toList) (cs : List Char) :
    AttributeTest.capturePattern.captures (op.symbol.toList ++ '"' :: (v.toList ++ '"' :: cs)) =
      [⟨op.symbol.toList ++ '"' :: (v.toList ++ ['"']),
        [(2, op.symbol.toList), (3, v.toList)], cs⟩] := by
  rw [AttributeTest.capturePattern, captures, captures, captures_operator hop, List.map_singleton,
    List.flatMap_singleton]
  simp only [Capture.inGroup]
  rw [captures_seq_literal, captures_value hv]
  rfl

theorem captures_test_eq_nil {c : Char} (hc : isAttributeChar c = true ∨ c = ']')
    (cs : List Char) : AttributeTest.capturePattern.captures (c :: cs) = [] := by
  rw [AttributeTest.capturePattern, captures, captures, captures_operator_eq_nil hc]
  rfl

theorem head?_captures_attr {name : String} (hname : IsName isAttributeStart isAttributeChar name)
    (hrest : ∀ c ∈ rest.head?, isAttributeChar c = false)
    (hm : ((seq (opt AttributeTest.capturePattern) (literal ']')).captures rest).head? = some m) :
    (SimpleKind.attr.capturePattern.captures ('[' :: (name.toList ++ rest))).head? =
      some ⟨'[' :: (name.toList ++ m.text), (1, name.toList) :: m.groups, m.rest⟩ := by
  have hg : Capture.Greedy isAttributeChar
      ((group 1 (CapturePattern.name isAttributeStart isAttributeChar)).captures
        (name.toList ++ rest)) ⟨name.toList, [(1, name.toList)], rest⟩ :=
    (greedy_name hname hrest).map fun _ => rfl
  rw [SimpleKind.capturePattern, captures_seq_literal, captures, hg.flatMap_eq, List.head?_map,
    List.head?_map, hm]
  · rfl
  · intro m' c tail hrest' hc
    have hne : c ≠ ']' := by
      rintro rfl
      exact absurd hc (by decide)
    have hnothing : (opt AttributeTest.capturePattern).captures (c :: tail) =
        [.nothing (c :: tail)] := by
      rw [captures, captures_test_eq_nil (.inl hc), List.nil_append]
    rw [hrest', captures, hnothing, List.flatMap_singleton, Capture.nothing,
      captures_literal_of_ne hne]
    rfl

theorem exists_capture_test {test : AttributeTest} (h : test.WellFormed) (rest : List Char) :
    ∃ m, (SimpleKind.attr.capturePattern.captures (test.text.toList ++ rest)).head? = some m ∧
      m.text = test.text.toList ∧ SimpleKind.attr.selectorOf? m = some (.attr test) := by
  by_cases hop : test.operator = .present
  · have hend : ((seq (opt AttributeTest.capturePattern) (literal ']')).captures
        (']' :: rest)).head? = some ⟨[']'], [], rest⟩ := by
      rw [captures, captures, captures_test_eq_nil (.inr rfl), List.nil_append,
        List.flatMap_singleton, Capture.nothing, captures_literal]
      rfl
    rw [AttributeTest.text_of_present hop, List.cons_append, List.append_assoc]
    refine ⟨_, head?_captures_attr h.name ?_ hend, rfl, ?_⟩
    · exact fun c hc => by obtain rfl := Option.some.inj hc; decide
    · simp [SimpleKind.selectorOf?, Capture.group?, List.lookup_cons, h.eq_present hop]
  · have hend : ((seq (opt AttributeTest.capturePattern) (literal ']')).captures
        (test.operator.symbol.toList ++ '"' :: (test.value.toList ++ '"' :: ']' :: rest))).head? =
        some ⟨test.operator.symbol.toList ++ '"' :: (test.value.toList ++ ['"', ']']),
          [(2, test.operator.symbol.toList), (3, test.value.toList)], rest⟩ := by
      rw [captures, captures, captures_test hop h.value, List.singleton_append, List.flatMap_cons,
        captures_literal]
      simp [Capture.andThen, Capture.one]
    obtain ⟨c, tail, hc, hstop, -⟩ := AttributeTest.head_symbol hop
      ('"' :: (test.value.toList ++ '"' :: ']' :: rest))
    have hsymbol : AttributeOperator.ofSymbol? test.operator.symbol = some test.operator :=
      AttributeOperator.ofSymbol?_eq_some.mpr ⟨hop, rfl⟩
    rw [AttributeTest.text_of_symbol hop, List.cons_append, List.append_assoc]
    have hm := head?_captures_attr h.name (by rw [hc]; simpa using hstop) hend
    refine ⟨_, by simpa using hm, rfl, ?_⟩
    simp [SimpleKind.selectorOf?, Capture.group?, List.lookup_cons, hsymbol]

/-! ## Classes -/

theorem greedy_dottedName {v : String} (hv : IsIdent v)
    (hrest : ∀ c ∈ rest.head?, isIdentChar c = false) :
    Capture.Greedy isIdentChar (dottedName.captures ('.' :: (v.toList ++ rest)))
      ⟨'.' :: v.toList, [], rest⟩ := by
  rw [dottedName, captures_seq_literal]
  exact (greedy_name hv hrest).map fun _ => rfl

theorem exists_of_mem_captures_dottedName (hm : m ∈ dottedName.captures cs) :
    m.text ≠ [] ∧ ∃ c tail, cs = '.' :: c :: tail ∧ isIdentChar c = true := by
  obtain ⟨⟨_, _, ⟨d, hd, rfl⟩, ⟨_, _, ⟨c, hc, rfl⟩, -, rfl⟩, ht⟩, rfl⟩ := captures_sound hm
  obtain rfl := of_decide_eq_true hd
  exact ⟨by simp [ht], c, _, by rw [ht]; rfl, hc⟩

theorem captures_many_dottedName (cs : List Char) :
    (many dottedName).captures cs = (many1 dottedName).captures cs ++ [.nothing cs] :=
  captures_many fun _ hm => (exists_of_mem_captures_dottedName hm).1

theorem head?_captures_many_dottedName {names : List String} (hnames : ∀ v ∈ names, IsIdent v)
    (hhead : names ≠ [] → ∀ c ∈ rest.head?, isIdentChar c = false)
    (hdot : ∀ c tail, rest = '.' :: c :: tail → isIdentChar c = false) :
    ((many dottedName).captures (dotted names ++ rest)).head? = some ⟨dotted names, [], rest⟩ := by
  induction names with
  | nil =>
    have hnone : dottedName.captures rest = [] := List.eq_nil_iff_forall_not_mem.mpr fun m hm => by
      obtain ⟨-, c, tail, rfl, hc⟩ := exists_of_mem_captures_dottedName hm
      exact absurd hc (by simp [hdot c tail rfl])
    rw [captures_many_dottedName, many1, captures, dotted, List.flatMap_nil, List.nil_append, hnone]
    rfl
  | cons v names ih =>
    obtain ⟨hv, hnames⟩ := List.forall_mem_cons.mp hnames
    have hstop : ∀ c ∈ (dotted names ++ rest).head?, isIdentChar c = false :=
      stops_dotted fun _ => hhead (by simp)
    have hd : dotted (v :: names) ++ rest = '.' :: (v.toList ++ (dotted names ++ rest)) := by
      simp [dotted]
    have hround : (((many dottedName).captures (dotted names ++ rest)).map
        (Capture.andThen ⟨'.' :: v.toList, [], dotted names ++ rest⟩)).head? =
        some ⟨dotted (v :: names), [], rest⟩ := by
      rw [List.head?_map, ih hnames fun _ => hhead (by simp)]
      rfl
    rw [captures_many_dottedName, List.head?_append, many1, captures, hd,
      (greedy_dottedName hv hstop).head?_flatMap hround, Option.some_or]

theorem head?_captures_classes {names : List String} (hne : names ≠ [])
    (hnames : ∀ v ∈ names, IsIdent v) (hs : (Simple.classes names).Stops rest) :
    (SimpleKind.classes.capturePattern.captures (dotted names ++ rest)).head? =
      some ⟨dotted names, [], rest⟩ := by
  have hmany := head?_captures_many_dottedName hnames (fun _ => hs.1) hs.2
  rw [captures_many_dottedName] at hmany
  change ((many1 dottedName).captures _).head? = _
  cases hms : (many1 dottedName).captures (dotted names ++ rest) with
  | cons m ms => rwa [hms] at hmany
  | nil =>
    -- no round at all would be the match of nothing
    rw [hms] at hmany
    have htext := congrArg Capture.text (Option.some.inj hmany)
    cases names with
    | nil => exact absurd rfl hne
    | cons v names => cases htext

theorem splitOn_dotted {names : List String} (hnames : ∀ v ∈ names, IsIdent v) :
    (dotted names).splitOn '.' = [] :: names.map String.toList := by
  suffices h : ∀ u : List Char, '.' ∉ u →
      (u ++ dotted names).splitOn '.' = u :: names.map String.toList from h [] List.not_mem_nil
  induction names with
  | nil =>
    intro u hu
    rw [dotted, List.flatMap_nil, List.append_nil, List.splitOn_eq_singleton hu, List.map_nil]
  | cons v names ih =>
    obtain ⟨hv, hnames⟩ := List.forall_mem_cons.mp hnames
    intro u hu
    have hdot : '.' ∉ v.toList := fun hmem => absurd (hv.all (fun _ => id) _ hmem) (by decide)
    show (u ++ '.' :: (v.toList ++ dotted names)).splitOn '.' = _
    rw [List.splitOn_append_cons_self_of_not_mem hu, ih hnames _ hdot, List.map_cons]

theorem selectorOf?_classes {names : List String} (hnames : ∀ v ∈ names, IsIdent v) :
    SimpleKind.classes.selectorOf? ⟨dotted names, [], rest⟩ = some (.classes names) := by
  have hne : ∀ cs ∈ names.map String.toList, decide (cs ≠ []) = true := by
    intro cs hcs
    obtain ⟨v, hv, rfl⟩ := List.mem_map.mp hcs
    obtain ⟨c, ds, hv, -⟩ := hnames v hv
    simp [hv]
  have hback : String.ofList ∘ String.toList = id := funext fun v => String.ofList_toList
  rw [SimpleKind.selectorOf?, splitOn_dotted hnames, List.filter_cons_of_neg (by simp),
    List.filter_eq_self.mpr hne, List.map_map, hback, List.map_id]

end CapturePattern

/-! ## All kinds -/

namespace SimpleKind

open CapturePattern

variable {k : SimpleKind} {s : Simple}

/-- **What is read is the preferred match**, and its groups hold the parts. -/
theorem exists_capture (h : k.read cs = some (s, rest)) :
    ∃ m, (k.capturePattern.captures cs).head? = some m ∧ m.text = s.text.toList ∧
      k.selectorOf? m = some s := by
  obtain ⟨rfl, hw, hs, rfl⟩ := read_eq_some.mp h
  cases s with
  | universal => exact ⟨.one '*' rest, congrArg List.head? (captures_literal '*' rest), rfl, rfl⟩
  | tag v =>
    refine ⟨⟨v.toList, [], rest⟩, (greedy_name hw hs).head?, rfl, ?_⟩
    rw [Simple.kind, selectorOf?, String.ofList_toList]
  | attr test => exact exists_capture_test hw rest
  | id v =>
    have htext : (Simple.id v).text.toList = '#' :: v.toList := by simp [Simple.text]
    have hname : ((many1 (char isIdentChar)).captures (v.toList ++ rest)).head? =
        some ⟨v.toList, [], rest⟩ := (greedy_name hw hs).head?
    refine ⟨⟨'#' :: v.toList, [(1, v.toList)], rest⟩, ?_, htext.symm, ?_⟩
    · rw [htext, List.cons_append, Simple.kind, capturePattern, captures_seq_literal, captures,
        List.head?_map, List.head?_map, hname]
      rfl
    · simp [Simple.kind, selectorOf?, Capture.group?]
  | classes names =>
    rw [text_classes]
    exact ⟨_, head?_captures_classes hw.1 hw.2 hs, rfl, selectorOf?_classes hw.2⟩

/-- **Reading a text and matching it recognize the same.** -/
theorem recognize?_eq_capture? (k : SimpleKind) (input : String) :
    k.recognize? input = k.capture? input := by
  cases h : k.read input.toList with
  | none => simp [recognize?, capture?, h, captures_eq_nil h]
  | some r =>
    obtain ⟨s, rest⟩ := r
    obtain ⟨m, hm, ht, hsel⟩ := exists_capture h
    rw [(recognize?_eq_some_of_read h).1, capture?, hm]
    simp [hsel, ht]

/-- **At most one kind recognizes a text**, by its expression and as far as possible. -/
theorem recognize?_spec (input : String) :
    (∀ k k' : SimpleKind, (k.recognize? input).isSome = true →
      (k'.recognize? input).isSome = true → k = k') ∧
    ∀ k : SimpleKind, k.recognize? input = k.capture? input ∧
      (∀ s n, k.recognize? input = some (s, n) ↔
        k.Front input s n ∧ ∀ s' n', k.Front input s' n' → n' ≤ n) ∧
      ((k.recognize? input).isSome = true ↔ ∃ s n, k.Front input s n) := by
  refine ⟨fun k k' h h' => ?_, fun k =>
    ⟨recognize?_eq_capture? k input, fun s n => recognize?_eq_some, isSome_recognize?_iff⟩⟩
  rw [recognize?, Option.isSome_map] at h h'
  exact read_unique h h'

end SimpleKind

end MarkupQuery
