import MarkupQuery.Proofs.Query.Covering
import MarkupQuery.Proofs.Query.First
import MarkupQuery.Proofs.Selector.Respelling
import MarkupQuery.Proofs.Selector.Simple

/-!
# Answers in other words

A selector in other words asks the same of every element. An id and a run of classes look at the
number of attributes and at an absent attribute in code of their own, but an identifier is never the
empty value, and no word is found in the empty value.

* `Simple.Respelled.all_holdsAt`, **`RespelledParts.all_holdsAt`**, `all_regroup`: parts in other
  words hold where the parts hold;
* `Compound.Alike`, `Alternative.Alike`, `Written.Respelled.alike`: the same, chain after chain;
* **`Tree.queryAll_respelled`**: the same answer in every tree.
-/

namespace MarkupQuery

open Relation

variable {t : Tree} {n : NodeId} {p : Simple} {parts parts' qs : List Simple}

/-! ## Parts -/

namespace Simple

/-- **A part in other words holds where the part holds.** -/
theorem Respelled.all_holdsAt (h : p.Respelled qs) (hp : p.WellFormed) :
    qs.all (·.holdsAt t n) = p.holdsAt t n := by
  cases h with
  | id value =>
    rw [Bool.eq_iff_iff, List.all_cons, List.all_nil, Bool.and_true,
      holdsAt_equals (IsIdent.ne_empty hp), holdsAt_id_iff]
  | classes names =>
    obtain ⟨v, hv⟩ := List.exists_mem_of_ne_nil names hp.1
    rw [Bool.eq_iff_iff, List.all_map, List.all_eq_true, holdsAt_classes_iff]
    simp only [Function.comp_apply, holdsAt_includes]
    cases t.attribute? n "class" with
    | none => simpa using ⟨v, hv⟩
    | some w => simp
  | split _ _ =>
    rw [holdsAt_classes_append, List.all_cons, List.all_cons, List.all_nil, Bool.and_true]

end Simple

/-! ## Compounds -/

theorem RespelledParts.all_holdsAt (h : RespelledParts parts parts')
    (hw : ∀ p ∈ parts, p.WellFormed) :
    parts'.all (·.holdsAt t n) = parts.all (·.holdsAt t n) := by
  cases h with
  | @part p qs h l r =>
    have hp := hw p (List.mem_append_right _ List.mem_cons_self)
    rw [List.all_append, List.all_append, List.all_append, List.all_cons, h.all_holdsAt hp]
  | universal p parts => exact (Bool.true_and _).symm
  | order lead _ h => rw [List.all_append, List.all_append, h.all_eq]

theorem all_holdsAt_of_respelled (h : ReflTransGen RespelledParts parts parts')
    (hw : Writable parts) : parts'.all (·.holdsAt t n) = parts.all (·.holdsAt t n) := by
  induction h with
  | refl => rfl
  | tail hs h ih => rw [h.all_holdsAt (writable_of_respelled hs hw).wellFormed, ih]

theorem all_regroup (parts : List Simple) :
    (regroup parts).all (·.holdsAt t n) = parts.all (·.holdsAt t n) := by
  induction parts with
  | nil => rfl
  | cons p parts ih =>
    rw [List.all_cons, ← ih, regroup, List.foldr_cons, ← regroup]
    rcases joinPart_cases p (regroup parts) with ⟨names, names', rest, rfl, hrest, he⟩ | ⟨he, -⟩
    · rw [he, hrest, List.all_cons, List.all_cons, Simple.holdsAt_classes_append, Bool.and_assoc]
    · rw [he, List.all_cons]

/-- Two compounds hold of the same nodes of a tree. -/
def Compound.Alike (t : Tree) (c c' : Compound) : Prop := ∀ n, c'.holdsAt t n = c.holdsAt t n

theorem alike_of_respelled (h : ReflTransGen RespelledParts parts parts') (hw : Writable parts) :
    Compound.Alike t ⟨regroup parts⟩ ⟨regroup parts'⟩ := fun n => by
  rw [Compound.holdsAt, Compound.holdsAt, all_regroup, all_regroup, all_holdsAt_of_respelled h hw]

/-! ## Chains -/

/-- Two chains with the same combinators, and with compounds that hold of the same nodes. -/
structure Alternative.Alike (t : Tree) (alt alt' : Alternative) : Prop where
  head : alt.head.Alike t alt'.head
  tail : List.Forall₂ (fun s s' => s'.1 = s.1 ∧ s.2.Alike t s'.2) alt.tail alt'.tail

theorem Alternative.Alike.covered {alt alt' : Alternative} (h : alt.Alike t alt')
    (context : NodeId) :
    alt.Covered t t context alt' ∧ alt'.Covered t t context alt := by
  refine ⟨⟨fun n hn => (h.head n).trans hn, h.tail.imp fun s s' hs => ⟨?_, ?_⟩⟩,
    ⟨fun n hn => (h.head n).symm.trans hn, h.tail.flip.imp fun s' s hs => ⟨?_, ?_⟩⟩⟩
  · exact fun a n _ _ hk => hs.1 ▸ hk
  · exact fun n hn => (hs.2 n).trans hn
  · exact fun a n _ _ hk => hs.1 ▸ hk
  · exact fun n hn => (hs.2 n).symm.trans hn

theorem Selector.alike_ofLinks {c c' : Compound} {links links' : List (Separator × Compound)}
    (hc : c.Alike t c')
    (hl : List.Forall₂ (fun l l' => l'.1 = l.1 ∧ l.2.Alike t l'.2) links links') :
    List.Forall₂ (Alternative.Alike t) (ofLinks c links).alternatives
      (ofLinks c' links').alternatives := by
  induction hl generalizing c c' with
  | nil => exact .cons ⟨hc, .nil⟩ .nil
  | @cons l l' links links' hl _ ih =>
    obtain ⟨sep, d⟩ := l
    obtain ⟨sep', d'⟩ := l'
    obtain ⟨rfl, hd⟩ := hl
    cases sep' with
    | comma => exact .cons ⟨hc, .nil⟩ (ih hd)
    | combinator k =>
      obtain ⟨hhead, htail⟩ := List.forall₂_cons.mp (ih hd)
      exact .cons ⟨hc, .cons ⟨rfl, hhead.head⟩ hhead.tail⟩ htail

theorem Written.Respelled.alike {w w' : Written} (h : w.Respelled w') (hw : w.Valid) :
    List.Forall₂ (Alternative.Alike t) w.selector.alternatives w'.selector.alternatives := by
  have hpairs := (List.forall₂_and_left _ _).mpr ⟨hw.links, h.links⟩
  refine Selector.alike_ofLinks (alike_of_respelled h.first hw.first) ?_
  rw [List.forall₂_map_left_iff, List.forall₂_map_right_iff]
  refine hpairs.imp fun l l' hl => ?_
  obtain ⟨⟨-, hparts⟩, hsep, -, hrespelled⟩ := hl
  exact ⟨hsep, alike_of_respelled hrespelled hparts⟩

/-! ## Answers -/

/-- **A text in other words answers the same.** -/
theorem Tree.queryAll_respelled :
    (∀ a, (∃ s, Selector.parse a = .ok s) ↔ ∃ w : Written, w.Valid ∧ w.text = a.toList) ∧
    ∀ a b, Respelled a b →
      (∃ s s', Selector.parse a = .ok s ∧ Selector.parse b = .ok s') ∧
      (Selector.expression.Matches a.toList → Selector.expression.Matches b.toList) ∧
      ∀ (changes : List Change) (context : NodeId),
        (after changes).queryAll context b = (after changes).queryAll context a := by
  refine ⟨fun a => Selector.exists_parse_iff, fun a b hab => ?_⟩
  obtain ⟨w, w', hw, ha, hb, h⟩ := hab
  have hw' := h.valid hw
  have hparse := Written.parse_text hw ha.symm
  have hparse' := Written.parse_text hw' hb.symm
  refine ⟨⟨_, _, hparse, hparse'⟩, ?_, fun changes context => ?_⟩
  · rw [← ha, ← hb, Written.matches_text_iff hw, Written.matches_text_iff hw', h.before, h.after]
    exact id
  · obtain ⟨kids, hlinked⟩ := wellLinked_after changes
    rw [queryAll_of_ok hparse, queryAll_of_ok hparse']
    refine congrArg Except.ok (Selector.all_eq_of_covered hlinked hlinked rfl ?_)
    exact (h.alike hw).imp fun alt alt' halt => halt.covered context

theorem Tree.queryAll_respelled_classes_apart :
    Respelled " ul>*#x.a.b" " ul>.b[id=\"x\"][class~=\"a\"]" ∧
      ∀ (changes : List Change) (context : NodeId),
        (after changes).queryAll context " ul>.b[id=\"x\"][class~=\"a\"]" =
          (after changes).queryAll context " ul>*#x.a.b" := by
  let parts : List Simple := [.universal, .id "x", .classes ["a", "b"]]
  let parts' : List Simple :=
    [.classes ["b"], .attr ⟨"id", .equals, "x"⟩, .attr ⟨"class", .includes, "a"⟩]
  have hrespelled : ReflTransGen RespelledParts parts parts' := by
    refine .head (.universal (.id "x") [.classes ["a", "b"]]) ?_
    refine .head (.part (.id "x") [] [.classes ["a", "b"]]) ?_
    refine .head (.part (@Simple.Respelled.split ["a"] ["b"] (by decide) (by decide))
      [.attr ⟨"id", .equals, "x"⟩] []) ?_
    refine .head (.part (.classes ["a"]) [.attr ⟨"id", .equals, "x"⟩] [.classes ["b"]]) ?_
    exact .single (.order none (by decide) (@List.perm_append_comm _ [_, _] [_]))
  have hx : IsIdent "x" := ⟨'x', [], rfl, rfl, by simp⟩
  have hnames : ∀ v ∈ ["a", "b"], IsIdent v := List.forall_mem_cons.mpr
    ⟨⟨'a', [], rfl, rfl, by simp⟩, List.forall_mem_singleton.mpr ⟨'b', [], rfl, rfl, by simp⟩⟩
  have hparts : Writable parts := by
    refine ⟨by decide, List.forall_mem_cons.mpr ⟨trivial, ?_⟩, by decide⟩
    exact List.forall_mem_cons.mpr ⟨hx, List.forall_mem_singleton.mpr ⟨by decide, hnames⟩⟩
  have hvalid : Written.Valid ⟨[' '], [.tag "ul"], [(.combinator .child, ['>'], parts)], []⟩ := by
    have htag : (Simple.tag "ul").WellFormed :=
      ⟨'u', ['l'], rfl, rfl, List.all_eq_true.mp (by decide)⟩
    have hchild : (Separator.combinator .child).Renders ['>'] :=
      ⟨[], [], blanks_nil, blanks_nil, rfl⟩
    exact ⟨blanks_space, ⟨by decide, List.forall_mem_singleton.mpr htag, by decide⟩,
      List.forall_mem_singleton.mpr ⟨hchild, hparts⟩, blanks_nil⟩
  have h : Respelled " ul>*#x.a.b" " ul>.b[id=\"x\"][class~=\"a\"]" := by
    exact ⟨_, ⟨[' '], [.tag "ul"], [(.combinator .child, ['>'], parts')], []⟩, hvalid, rfl, rfl,
      rfl, .refl, .cons ⟨rfl, rfl, hrespelled⟩ .nil, rfl⟩
  exact ⟨h, (Tree.queryAll_respelled.2 _ _ h).2.2⟩

end MarkupQuery
