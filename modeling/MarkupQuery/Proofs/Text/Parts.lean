import Mathlib.Data.List.Infix
import Mathlib.Logic.Function.Basic
import MarkupQuery.Proofs.Text.Reader

/-!
# Parts of texts

What a search through a text finds, said by how the text is put together.

* `toList_prefix_iff`, `toList_suffix_iff`, `toList_infix_iff`: a text in front, at the end and
  inside;
* `IsRun`, `IsWord`: a run of characters, and a word of a value, by the cuts on its two sides;
* **`mem_runs`**, **`mem_words`**: splitting gives the runs and the words, and nothing else.
-/

namespace MarkupQuery

/-! ## Texts inside texts -/

section

variable {u v : String}

theorem toList_surjective : Function.Surjective String.toList := fun l =>
  ⟨.ofList l, String.toList_ofList⟩

theorem toList_prefix_iff : u.toList <+: v.toList ↔ ∃ s, v = u ++ s := by
  refine toList_surjective.exists.trans (exists_congr fun s => ?_)
  rw [← String.toList_append, String.toList_inj, eq_comm]

theorem toList_suffix_iff : u.toList <:+ v.toList ↔ ∃ p, v = p ++ u := by
  refine toList_surjective.exists.trans (exists_congr fun p => ?_)
  rw [← String.toList_append, String.toList_inj, eq_comm]

theorem toList_infix_iff : u.toList <:+: v.toList ↔ ∃ p s, v = p ++ u ++ s := by
  refine toList_surjective.exists₂.trans (exists₂_congr fun p s => ?_)
  rw [← String.toList_append, ← String.toList_append, String.toList_inj, eq_comm]

end

/-! ## Runs -/

/-- The characters `w` stand in `cs` as a run: `part` fails on all of them, and holds on what stands
right before and right after, if anything does. -/
structure IsRun (part : Char → Bool) (w cs : List Char) : Prop where
  ne_nil : w ≠ []
  solid : ∀ c ∈ w, part c = false
  cut : ∃ p s, cs = p ++ w ++ s ∧ (∀ c ∈ p.getLast?, part c = true) ∧ ∀ c ∈ s.head?, part c = true

section

variable {part : Char → Bool} {w r s cs rest : List Char} {c : Char}

theorem not_part_head (hw : w ≠ []) (hsolid : ∀ c ∈ w, part c = false) :
    ∀ c ∈ (w ++ s).head?, part c = false := by
  obtain ⟨d, w, rfl⟩ := List.exists_cons_of_ne_nil hw
  exact fun c hc => hsolid c (Option.some.inj hc ▸ List.mem_cons_self)

theorem takeWhile_run (hsolid : ∀ c ∈ w, part c = false) (hs : ∀ c ∈ s.head?, part c = true) :
    (w ++ s).takeWhile (! part ·) = w :=
  takeWhile_append_stop (fun c hc => by rw [hsolid c hc]; rfl) fun c hc => by rw [hs c hc]; rfl

theorem not_isRun_nil : ¬ IsRun part w [] := by
  rintro ⟨hw, -, p, s, he, -⟩
  exact hw (List.append_eq_nil_iff.mp (List.append_eq_nil_iff.mp he.symm).1).2

theorem isRun_cons_iff (hc : part c = true) : IsRun part w (c :: cs) ↔ IsRun part w cs := by
  constructor
  · rintro ⟨hw, hsolid, p, s, he, hp, hs⟩
    cases p with
    | nil =>
      have hhead := not_part_head hw hsolid c (he ▸ rfl : c ∈ (w ++ s).head?)
      exact absurd (hhead.symm.trans hc) Bool.false_ne_true
    | cons d p =>
      refine ⟨hw, hsolid, p, s, (List.cons.inj he).2, fun e hlast => hp e ?_, hs⟩
      rw [List.getLast?_cons, hlast]
      rfl
  · rintro ⟨hw, hsolid, p, s, rfl, hp, hs⟩
    refine ⟨hw, hsolid, c :: p, s, rfl, fun e hlast => ?_, hs⟩
    rw [List.getLast?_cons, Option.mem_some] at hlast
    cases hp' : p.getLast? with
    | none => rwa [← hlast, hp']
    | some d => exact hlast ▸ hp' ▸ hp d hp'

/-- **Behind one run the others follow.** -/
theorem isRun_append_iff (hr : r ≠ []) (hsolid : ∀ c ∈ r, part c = false)
    (hrest : ∀ c ∈ rest.head?, part c = true) :
    IsRun part w (r ++ rest) ↔ w = r ∨ IsRun part w rest := by
  constructor
  · rintro ⟨hw, hw', p, s, he, hp, hs⟩
    rw [List.append_assoc] at he
    rcases List.append_eq_append_iff.mp he with ⟨a, rfl, ha⟩ | ⟨b, rfl, hb⟩
    · refine .inr ⟨hw, hw', a, s, by rw [ha, List.append_assoc], fun c hc => hp c ?_, hs⟩
      rw [List.getLast?_append, hc]
      rfl
    -- nothing parts inside the first run, so that `w` begins where that run begins
    · have hp' : p = [] := by
        refine List.getLast?_eq_none_iff.mp (Option.eq_none_iff_forall_not_mem.mpr fun c hc => ?_)
        have hmem := List.mem_append_left b (List.mem_of_mem_getLast? hc)
        exact Bool.false_ne_true ((hsolid c hmem).symm.trans (hp c hc))
      subst hp'
      rw [← takeWhile_run hw' hs, hb, List.nil_append]
      exact .inl (takeWhile_run hsolid hrest)
  · rintro (rfl | ⟨hw, hw', p, s, rfl, hp, hs⟩)
    · exact ⟨hr, hsolid, [], rest, rfl, (fun c hc => nomatch hc), hrest⟩
    · refine ⟨hw, hw', r ++ p, s, by simp only [List.append_assoc], fun c hc => hp c ?_, hs⟩
      -- `w` has to be parted from the run before it
      have hp' : p ≠ [] := by
        rintro rfl
        obtain ⟨d, hd⟩ := Option.isSome_iff_exists.mp (List.isSome_head?.mpr
          (List.append_ne_nil_of_left_ne_nil hw s))
        exact Bool.false_ne_true ((not_part_head hw hw' d hd).symm.trans (hrest d hd))
      rw [List.getLast?_append, List.getLast?_eq_some_getLast hp'] at hc
      rw [List.getLast?_eq_some_getLast hp']
      exact hc

theorem mem_runs : w ∈ runs part cs ↔ IsRun part w cs := by
  fun_induction runs part cs with
  | case1 => exact iff_of_false List.not_mem_nil not_isRun_nil
  | case2 c cs hc ih => rw [ih, isRun_cons_iff hc]
  | case3 c cs hc ih =>
    have hsolid : ∀ d ∈ c :: cs.takeWhile (! part ·), part d = false := by
      refine List.forall_mem_cons.mpr ⟨Bool.eq_false_iff.mpr hc, fun d hd => ?_⟩
      simpa using List.all_eq_true.mp List.all_takeWhile d hd
    have hrest : ∀ d ∈ (cs.dropWhile (! part ·)).head?, part d = true := fun d hd => by
      simpa using not_head_dropWhile (! part ·) cs d hd
    have hrun := isRun_append_iff (w := w) (List.cons_ne_nil c _) hsolid hrest
    rw [List.cons_append, List.takeWhile_append_dropWhile] at hrun
    rw [List.mem_cons, ih, hrun]

end

/-! ## Words -/

/-- The text `w` stands in the value `v` as a word: it is not empty, holds no space, and is parted
by spaces from what stands before and after it. -/
structure IsWord (w v : String) : Prop where
  ne_empty : w ≠ ""
  solid : ∀ c ∈ w.toList, isSpace c = false
  cut : ∃ p s, v = p ++ w ++ s ∧ (∀ c ∈ p.toList.getLast?, isSpace c = true) ∧
    ∀ c ∈ s.toList.head?, isSpace c = true

theorem isRun_toList_iff {w v : String} : IsRun isSpace w.toList v.toList ↔ IsWord w v := by
  have hcut : (∃ p s, v.toList = p ++ w.toList ++ s ∧ (∀ c ∈ p.getLast?, isSpace c = true) ∧
      ∀ c ∈ s.head?, isSpace c = true) ↔
      ∃ p s, v = p ++ w ++ s ∧ (∀ c ∈ p.toList.getLast?, isSpace c = true) ∧
        ∀ c ∈ s.toList.head?, isSpace c = true := by
    refine toList_surjective.exists₂.trans (exists₂_congr fun p s => and_congr_left' ?_)
    rw [← String.toList_append, ← String.toList_append, String.toList_inj]
  constructor
  · rintro ⟨hw, hsolid, h⟩
    exact ⟨fun e => hw (String.toList_eq_nil_iff.mpr e), hsolid, hcut.mp h⟩
  · rintro ⟨hw, hsolid, h⟩
    exact ⟨fun e => hw (String.toList_eq_nil_iff.mp e), hsolid, hcut.mpr h⟩

/-- **Splitting a value gives exactly its words.** -/
theorem mem_words {w v : String} : w ∈ words v ↔ IsWord w v := by
  rw [words, List.mem_map, ← isRun_toList_iff, ← mem_runs]
  constructor
  · rintro ⟨cs, hcs, rfl⟩
    rwa [String.toList_ofList]
  · exact fun h => ⟨w.toList, h, String.ofList_toList⟩

theorem mem_words_getD {w : String} {value : Option String} :
    w ∈ words (value.getD "") ↔ ∃ v, value = some v ∧ w ∈ words v := by
  have hempty : words "" = [] := by simp [words, runs]
  cases value with
  | none => simp [hempty]
  | some v => simp

end MarkupQuery
