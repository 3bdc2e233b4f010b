import MarkupQuery.Proofs.Text.Parts
import MarkupQuery.Proofs.Tree.Attributes
import MarkupQuery.Selector.Simple
import MarkupQuery.Tree.ElementAt

/-!
# What simple selectors ask

An operator asks how a value is put together from the value of its test and what stands around it.
A class is one of the words of an attribute, and so is what the operator for words asks for.

* `AttributeOperator.Relates`: the table of operators, with **`AttributeTest.accepts_iff`**;
* `Simple.holdsAt_equals`, `Simple.holdsAt_includes`, `Simple.holdsAt_id_iff`,
  `Simple.holdsAt_classes_iff`: where an id, a word and a run of classes hold;
* `ElementAt.mem_classes_iff`, `ElementAt.holdsAt_class_iff`: one class of one element;
* **`AttributeTest.accepts_iff_relates`**: the table and the classes together.
-/

namespace MarkupQuery

variable {t : Tree} {n : NodeId}

/-! ## Operators -/

/-- How an operator wants the value of an attribute to be put together. -/
def AttributeOperator.Relates (token value : String) : AttributeOperator → Prop
  | present => value ≠ ""
  | equals => value = token
  | includes => IsWord token value
  | dashMatch => value = token ∨ ∃ s, value = token ++ "-" ++ s
  | startsWith => ∃ s, value = token ++ s
  | endsWith => ∃ p, value = p ++ token
  | contains => ∃ p s, value = p ++ token ++ s

theorem occursIn_iff {token cs : List Char} : occursIn token cs = true ↔ token <:+: cs := by
  induction cs with
  | nil => rw [occursIn, List.isEmpty_iff, List.infix_nil]
  | cons c cs ih =>
    rw [occursIn, Bool.or_eq_true, List.isPrefixOf_iff_prefix, ih, List.infix_cons_iff]

/-- **A test accepts the values that its operator asks for.** -/
theorem AttributeTest.accepts_iff (test : AttributeTest) (v : String) :
    test.accepts v = true ↔ test.operator.Relates test.value v := by
  obtain ⟨name, op, token⟩ := test
  cases op with
  | present => exact decide_eq_true_iff
  | equals => exact decide_eq_true_iff
  | includes => exact List.contains_iff_mem.trans mem_words
  | dashMatch =>
    have hdash : token.toList ++ ['-'] = (token ++ "-").toList := by rw [String.toList_append]; rfl
    rw [accepts, Bool.or_eq_true, decide_eq_true_iff, List.isPrefixOf_iff_prefix, hdash,
      toList_prefix_iff]
    rfl
  | startsWith => exact List.isPrefixOf_iff_prefix.trans toList_prefix_iff
  | endsWith => exact List.isSuffixOf_iff_suffix.trans toList_suffix_iff
  | contains => exact occursIn_iff.trans toList_infix_iff

/-! ## Ids, words and classes -/

namespace Simple

theorem holdsAt_equals {name v : String} (hv : v ≠ "") :
    (attr ⟨name, .equals, v⟩).holdsAt t n = true ↔ t.attribute? n name = some v := by
  rw [holdsAt, AttributeTest.accepts, Bool.and_eq_true, decide_eq_true_iff, decide_eq_true_iff]
  cases ha : t.attribute? n name with
  | none => simp [hv.symm]
  | some w => simp [Tree.attributeCount_pos ha]

theorem holdsAt_includes {name v : String} : (attr ⟨name, .includes, v⟩).holdsAt t n = true ↔
    ∃ w, t.attribute? n name = some w ∧ v ∈ words w := by
  rw [holdsAt, AttributeTest.accepts, Bool.and_eq_true, decide_eq_true_iff, List.contains_iff_mem,
    mem_words_getD]
  exact and_iff_right_of_imp fun ⟨_, ha, _⟩ => Tree.attributeCount_pos ha

theorem holdsAt_id_iff {v : String} :
    (id v).holdsAt t n = true ↔ t.attribute? n "id" = some v := by
  rw [holdsAt, Bool.and_eq_true, decide_eq_true_iff, Tree.carriesId, decide_eq_true_iff]
  exact and_iff_right_of_imp fun ha => Tree.attributeCount_pos ha

theorem holdsAt_classes_iff {names : List String} : (classes names).holdsAt t n = true ↔
    ∃ w, t.attribute? n "class" = some w ∧ ∀ v ∈ names, v ∈ words w := by
  rw [holdsAt, Bool.and_eq_true, decide_eq_true_iff]
  cases ha : t.attribute? n "class" with
  | none => simp
  | some w => simp [Tree.attributeCount_pos ha]

theorem holdsAt_classes_append (names names' : List String) :
    (classes (names ++ names')).holdsAt t n =
      ((classes names).holdsAt t n && (classes names').holdsAt t n) := by
  rw [Bool.eq_iff_iff, Bool.and_eq_true, holdsAt_classes_iff, holdsAt_classes_iff,
    holdsAt_classes_iff]
  cases t.attribute? n "class" <;> simp [or_imp, forall_and]

end Simple

namespace ElementAt

variable (e : ElementAt t) {c : String}

theorem attribute?_eq (name : String) : t.attribute? e.id name = e.attribute? name := by
  rw [Tree.attribute?, e.element?_id]
  rfl

theorem mem_classes_iff :
    c ∈ e.classes ↔ ∃ v, e.attribute? "class" = some v ∧ IsWord c v := by
  rw [classes, Element.classes, ← attribute?, mem_words_getD]
  simp only [mem_words]

theorem holdsAt_class_iff : (Simple.classes [c]).holdsAt t e.id = true ↔ c ∈ e.classes := by
  simp only [Simple.holdsAt_classes_iff, e.mem_classes_iff, e.attribute?_eq,
    List.forall_mem_singleton, mem_words]

end ElementAt

/-- **What the operators and the classes ask for**, with five characters that part words. -/
theorem AttributeTest.accepts_iff_relates :
    (∀ (test : AttributeTest) (v : String),
      test.accepts v = true ↔ test.operator.Relates test.value v) ∧
    (∀ (t : Tree) (e : ElementAt t) (c : String),
      ((Simple.classes [c]).holdsAt t e.id = true ↔ c ∈ e.classes) ∧
      (c ∈ e.classes ↔
        ∃ v, e.attribute? "class" = some v ∧ AttributeOperator.includes.Relates c v)) ∧
    ∀ c, isSpace c = true ↔ c = ' ' ∨ c = '\t' ∨ c = '\n' ∨ c = '\x0c' ∨ c = '\r' :=
  ⟨AttributeTest.accepts_iff, fun _ e _ => ⟨e.holdsAt_class_iff, e.mem_classes_iff⟩,
    fun _ => isSpace_iff⟩

/-- A no-break space is a blank, but parts no words. -/
example : isBlank '\u00a0' = true ∧ isSpace '\u00a0' = false ∧
    AttributeTest.accepts ⟨"class", .includes, "a"⟩ "a\u00a0b a" = true ∧
    AttributeTest.accepts ⟨"class", .includes, "a"⟩ "a\u00a0b c" = false :=
  ⟨by decide, by decide, by cbv, by cbv⟩

end MarkupQuery
