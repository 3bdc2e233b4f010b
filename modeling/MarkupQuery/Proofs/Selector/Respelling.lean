import MarkupQuery.Proofs.Selector.Text

/-!
# Other spellings

A selector can be written in other words. An id and a run of classes are tests of attributes, a star
before predicates says nothing, and predicates may stand in any order. The blanks and separators of
the text stay as they are. Two runs of classes that come to stand side by side are one run.

* `RespelledParts`, with `Simple.Respelled` for one part: the parts of a compound in other words;
* `Writable`: parts that may be written side by side, with **`RespelledParts.writable`**;
* `regroup`: the parts as they are read again, with `written_regroup`, **`wellFormed_regroup`**;
* `Written`: a text as parts and separators, with **`Written.parse_text`** and
  **`Selector.exists_parse_iff`**: the texts that are read are those of valid ones;
* `Written.Respelled`, `Respelled`: a whole text in other words.
-/

namespace MarkupQuery

open Relation

variable {p : Simple} {parts parts' qs : List Simple}

/-! ## Parts in other words -/

/-- One part of a compound in other words. -/
inductive Simple.Respelled : Simple → List Simple → Prop
  /-- `#x` as `[id="x"]`. -/
  | id (value : String) : Respelled (.id value) [.attr ⟨"id", .equals, value⟩]
  /-- `.a.b` as `[class~="a"][class~="b"]`. -/
  | classes (names : List String) :
      Respelled (.classes names) (names.map fun v => .attr ⟨"class", .includes, v⟩)
  /-- A run of classes as two runs. The text is the same, but the two can be parted afterwards. -/
  | split {names names' : List String} (h : names ≠ []) (h' : names' ≠ []) :
      Respelled (.classes (names ++ names')) [.classes names, .classes names']

/-- The parts of a compound in other words. -/
inductive RespelledParts : List Simple → List Simple → Prop
  /-- One of the parts is rewritten. -/
  | part {p : Simple} {qs : List Simple} (h : p.Respelled qs) (l r : List Simple) :
      RespelledParts (l ++ p :: r) (l ++ (qs ++ r))
  /-- `*` is left out before at least one predicate. -/
  | universal (p : Simple) (parts : List Simple) :
      RespelledParts (.universal :: p :: parts) (p :: parts)
  /-- The predicates behind the tag or `*`, if one leads, are put in another order. -/
  | order (lead : Option Simple) {ps ps' : List Simple}
      (hp : ∀ p ∈ ps, p.kind.leadsCompound = false) (h : ps.Perm ps') :
      RespelledParts (lead.toList ++ ps) (lead.toList ++ ps')

/-! ## Parts that can be written -/

/-- Parts that can be written side by side. Runs of classes may meet. -/
structure Writable (parts : List Simple) : Prop where
  ne_nil : parts ≠ []
  wellFormed : ∀ p ∈ parts, p.WellFormed
  follow : ∀ p ∈ parts.tail, p.kind.leadsCompound = false

theorem Compound.WellFormed.writable {c : Compound} (hc : c.WellFormed) : Writable c.parts := by
  refine ⟨hc.ne_nil, hc.parts, ?_⟩
  have hfollow := hc.follow
  cases hp : c.parts with
  | nil => exact fun q hq => absurd hq List.not_mem_nil
  | cons p parts => exact Simple.not_leads_of_chain (hp ▸ hfollow)

theorem AttributeTest.wellFormed_of_isIdent {name v : String} {op : AttributeOperator}
    (hname : IsName isAttributeStart isAttributeChar name) (hop : op ≠ .present) (hv : IsIdent v) :
    AttributeTest.WellFormed ⟨name, op, v⟩ := by
  refine ⟨hname, fun hq => ?_, fun h => absurd h hop⟩
  have hquote : isIdentChar '"' = false := by decide
  rw [hv.all (fun _ h => h) '"' hq] at hquote
  cases hquote

theorem Simple.Respelled.writable (h : p.Respelled qs) (hp : p.WellFormed) :
    qs ≠ [] ∧ ∀ q ∈ qs, q.WellFormed ∧ q.kind.leadsCompound = false := by
  cases h with
  | id value =>
    have hname : IsName isAttributeStart isAttributeChar "id" :=
      ⟨'i', ['d'], rfl, rfl, List.all_eq_true.mp (by decide)⟩
    exact ⟨List.cons_ne_nil _ _, List.forall_mem_singleton.mpr
      ⟨AttributeTest.wellFormed_of_isIdent hname (by decide) hp, rfl⟩⟩
  | classes names =>
    have hname : IsName isAttributeStart isAttributeChar "class" :=
      ⟨'c', ['l', 'a', 's', 's'], rfl, rfl, List.all_eq_true.mp (by decide)⟩
    refine ⟨fun e => hp.1 (List.map_eq_nil_iff.mp e), List.forall_mem_map.mpr fun v hv => ?_⟩
    exact ⟨AttributeTest.wellFormed_of_isIdent hname (by decide) (hp.2 v hv), rfl⟩
  | split hne hne' =>
    obtain ⟨hv, hv'⟩ := List.forall_mem_append.mp hp.2
    refine ⟨List.cons_ne_nil _ _, List.forall_mem_cons.mpr ⟨⟨⟨hne, hv⟩, rfl⟩, ?_⟩⟩
    exact List.forall_mem_singleton.mpr ⟨⟨hne', hv'⟩, rfl⟩

theorem RespelledParts.writable (h : RespelledParts parts parts') (hw : Writable parts) :
    Writable parts' := by
  obtain ⟨hne, hparts, hfollow⟩ := hw
  cases h with
  | @part p qs h l r =>
    obtain ⟨hl, hparts⟩ := List.forall_mem_append.mp hparts
    obtain ⟨hp, hr⟩ := List.forall_mem_cons.mp hparts
    obtain ⟨hqne, hqs⟩ := h.writable hp
    refine ⟨by simp [hqne], ?_, ?_⟩
    · refine List.forall_mem_append.mpr ⟨hl, List.forall_mem_append.mpr ⟨?_, hr⟩⟩
      exact fun q hq => (hqs q hq).1
    · cases l with
      | nil =>
        obtain ⟨q, qs, rfl⟩ := List.exists_cons_of_ne_nil hqne
        refine List.forall_mem_append.mpr ⟨fun x hx => ?_, hfollow⟩
        exact (hqs x (List.mem_cons_of_mem _ hx)).2
      | cons a l =>
        obtain ⟨hl, hr⟩ := List.forall_mem_append.mp hfollow
        refine List.forall_mem_append.mpr ⟨hl, List.forall_mem_append.mpr ⟨?_, ?_⟩⟩
        · exact fun q hq => (hqs q hq).2
        · exact fun x hx => hr x (List.mem_cons_of_mem _ hx)
  | universal p parts =>
    refine ⟨List.cons_ne_nil _ _, (List.forall_mem_cons.mp hparts).2, fun q hq => ?_⟩
    exact hfollow q (List.mem_cons_of_mem _ hq)
  | @order lead ps ps' hp h =>
    obtain ⟨hl, hps⟩ := List.forall_mem_append.mp hparts
    have hmem : ∀ q ∈ ps', q ∈ ps := fun q hq => h.mem_iff.mpr hq
    refine ⟨fun e => hne ?_, List.forall_mem_append.mpr ⟨hl, fun q hq => hps q (hmem q hq)⟩, ?_⟩
    · obtain ⟨hlead, rfl⟩ := List.append_eq_nil_iff.mp e
      rw [hlead, h.eq_nil, List.append_nil]
    · have hp' : ∀ q ∈ ps', q.kind.leadsCompound = false := fun q hq => hp q (hmem q hq)
      cases lead with
      | none => exact fun q hq => hp' q (List.mem_of_mem_tail hq)
      | some a => exact hp'

theorem writable_of_respelled (h : ReflTransGen RespelledParts parts parts') (hw : Writable parts) :
    Writable parts' := by
  induction h with
  | refl => exact hw
  | tail _ h ih => exact h.writable ih

/-! ## Runs of classes -/

/-- A part in front of others. Two runs of classes that meet become one. -/
def joinPart : Simple → List Simple → List Simple
  | .classes names, .classes names' :: parts => .classes (names ++ names') :: parts
  | p, parts => p :: parts

/-- The parts as they are read, with all runs of classes joined that stand side by side. -/
def regroup (parts : List Simple) : List Simple := parts.foldr joinPart []

theorem joinPart_cases (p : Simple) (parts : List Simple) :
    (∃ names names' rest, p = .classes names ∧ parts = .classes names' :: rest ∧
      joinPart p parts = .classes (names ++ names') :: rest) ∨
    (joinPart p parts = p :: parts ∧
      ∀ q ∈ parts.head?, ¬ (p.kind = .classes ∧ q.kind = .classes)) := by
  cases p with
  | classes names =>
    match parts with
    | [] => exact .inr ⟨rfl, fun q hq => by cases hq⟩
    | .classes names' :: rest => exact .inl ⟨names, names', rest, rfl, rfl, rfl⟩
    | .universal :: rest | .tag _ :: rest | .attr _ :: rest | .id _ :: rest =>
      refine .inr ⟨rfl, fun q hq hpq => ?_⟩
      obtain rfl := Option.some.inj hq
      cases hpq.2
  | universal | tag | attr | id => exact .inr ⟨rfl, fun q _ hpq => by cases hpq.1⟩

theorem written_joinPart (p : Simple) (parts : List Simple) :
    written (joinPart p parts) = p.text.toList ++ written parts := by
  rcases joinPart_cases p parts with ⟨names, names', rest, rfl, rfl, he⟩ | ⟨he, -⟩
  · rw [he, written_cons, written_cons, text_classes, text_classes, text_classes, dotted_append,
      List.append_assoc]
  · rw [he, written_cons]

theorem written_regroup (parts : List Simple) : written (regroup parts) = written parts := by
  induction parts with
  | nil => rfl
  | cons p parts ih => rw [regroup, List.foldr_cons, written_joinPart, ← regroup, ih, written_cons]

theorem head?_joinPart (p : Simple) (parts : List Simple) :
    ∃ q, (joinPart p parts).head? = some q ∧ q.kind = p.kind := by
  rcases joinPart_cases p parts with ⟨names, names', rest, rfl, rfl, he⟩ | ⟨he, -⟩
  · exact ⟨.classes (names ++ names'), by rw [he]; rfl, rfl⟩
  · exact ⟨p, by rw [he]; rfl, rfl⟩

theorem wellFormed_joinPart (hp : p.WellFormed) (hw : ∀ q ∈ parts, q.WellFormed) :
    ∀ q ∈ joinPart p parts, q.WellFormed := by
  rcases joinPart_cases p parts with ⟨names, names', rest, rfl, rfl, he⟩ | ⟨he, -⟩
  · obtain ⟨hq, hw⟩ := List.forall_mem_cons.mp hw
    rw [he]
    refine List.forall_mem_cons.mpr ⟨⟨?_, List.forall_mem_append.mpr ⟨hp.2, hq.2⟩⟩, hw⟩
    exact fun e => hp.1 (List.append_eq_nil_iff.mp e).1
  · rw [he]
    exact List.forall_mem_cons.mpr ⟨hp, hw⟩

theorem isChain_joinPart (hw : parts.IsChain Simple.MayFollow)
    (hlead : ∀ q ∈ parts.head?, q.kind.leadsCompound = false) :
    (joinPart p parts).IsChain Simple.MayFollow := by
  rcases joinPart_cases p parts with ⟨names, names', rest, rfl, rfl, he⟩ | ⟨he, hno⟩
  · rw [he]
    rw [List.isChain_cons] at hw ⊢
    exact hw
  · rw [he, List.isChain_cons]
    exact ⟨fun q hq => ⟨hlead q hq, hno q hq⟩, hw⟩

/-- **Parts that can be written make a compound** with their classes joined. -/
theorem wellFormed_regroup (hw : Writable parts) : Compound.WellFormed ⟨regroup parts⟩ := by
  have key : ∀ parts : List Simple, (∀ q ∈ parts.tail, q.kind.leadsCompound = false) →
      (regroup parts).IsChain Simple.MayFollow := by
    intro parts
    induction parts with
    | nil => exact fun _ => .nil
    | cons p parts ih =>
      intro hfollow
      refine isChain_joinPart (ih fun q hq => hfollow q (List.mem_of_mem_tail hq)) fun q hq => ?_
      -- the first of the parts behind has kept its kind
      cases parts with
      | nil => cases hq
      | cons r parts =>
        obtain ⟨q', hq', hkind⟩ := head?_joinPart r (regroup parts)
        obtain rfl := Option.some.inj (hq'.symm.trans hq)
        rw [hkind]
        exact hfollow r List.mem_cons_self
  obtain ⟨hne, hparts, hfollow⟩ := hw
  refine ⟨?_, ?_, key parts hfollow⟩
  · obtain ⟨p, parts, rfl⟩ := List.exists_cons_of_ne_nil hne
    obtain ⟨q, hq, -⟩ := head?_joinPart p (regroup parts)
    intro e
    rw [show joinPart p (regroup parts) = [] from e] at hq
    cases hq
  · clear hne hfollow
    induction parts with
    | nil => exact fun q hq => absurd hq List.not_mem_nil
    | cons p parts ih =>
      obtain ⟨hp, hparts⟩ := List.forall_mem_cons.mp hparts
      exact wellFormed_joinPart hp (ih hparts)

/-! ## Whole texts -/

/-- A text as it is written: blanks, the parts of the first compound, the parts of each further one
behind a separator and its text, and blanks. -/
structure Written where
  before : List Char
  first : List Simple
  links : List (Separator × List Char × List Simple)
  after : List Char

namespace Written

variable (w : Written)

/-- The text between the outer blanks. -/
def body : List Char :=
  written w.first ++ w.links.flatMap fun (_, blanks, parts) => blanks ++ written parts

/-- The whole text. -/
def text : List Char := w.before ++ (w.body ++ w.after)

/-- The selector of the parts. -/
def selector : Selector :=
  .ofLinks ⟨regroup w.first⟩ (w.links.map fun (sep, _, parts) => (sep, ⟨regroup parts⟩))

/-- The outer blanks are blanks, the parts can be written, and so can the separators. -/
structure Valid : Prop where
  before : Blanks w.before
  first : Writable w.first
  links : ∀ l ∈ w.links, l.1.Renders l.2.1 ∧ Writable l.2.2
  after : Blanks w.after

variable {w} (hw : w.Valid)

include hw

theorem wellFormed_selector : w.selector.WellFormed := by
  refine Selector.wellFormed_ofLinks.mpr ⟨wellFormed_regroup hw.first, ?_⟩
  exact List.forall_mem_map.mpr fun l hl => wellFormed_regroup (hw.links l hl).2

theorem renders_selector : w.selector.Renders w.body := by
  have key : ∀ links : List (Separator × List Char × List Simple),
      (∀ l ∈ links, l.1.Renders l.2.1 ∧ Writable l.2.2) →
      RendersLinks (links.map fun (sep, _, parts) => (sep, ⟨regroup parts⟩))
        (links.flatMap fun (_, blanks, parts) => blanks ++ written parts) := by
    intro links hlinks
    induction links with
    | nil => rfl
    | cons l links ih =>
      obtain ⟨hl, hlinks⟩ := List.forall_mem_cons.mp hlinks
      refine ⟨l.2.1, _, hl.1, ih hlinks, ?_⟩
      rw [List.flatMap_cons, Compound.text_toList, written_regroup, List.append_assoc]
  refine Selector.renders_ofLinks.mpr ⟨_, key _ hw.links, ?_⟩
  rw [Compound.text_toList, written_regroup, body]

/-- **A valid text is read as the selector of its parts.** -/
theorem parse_text {a : String} (ha : a.toList = w.text) : Selector.parse a = .ok w.selector :=
  Selector.parse_eq_ok.mpr (Selector.read?_trim.mpr ⟨wellFormed_selector hw,
    w.before, w.body, w.after, hw.before, renders_selector hw, hw.after, ha⟩)

theorem matches_text_iff : Selector.expression.Matches w.text ↔ w.before = [] ∧ w.after = [] := by
  have hr := renders_selector hw
  have hf := wellFormed_selector hw
  constructor
  · intro hm
    obtain ⟨s, hs, hrs⟩ := Selector.matches_expression.mp hm
    have hsolid : trim w.text = w.text := by
      have he := trim_append blanks_nil blanks_nil (hrs.solid hs).1 (hrs.solid hs).2
      rwa [List.nil_append, List.append_nil] at he
    have htrim : trim w.text = w.body :=
      trim_append hw.before hw.after (hr.solid hf).1 (hr.solid hf).2
    have hlength := congrArg List.length (hsolid.symm.trans htrim)
    rw [text, List.length_append, List.length_append] at hlength
    exact ⟨List.eq_nil_of_length_eq_zero (by omega), List.eq_nil_of_length_eq_zero (by omega)⟩
  · rintro ⟨hb, ha⟩
    rw [text, hb, ha, List.nil_append, List.append_nil]
    exact Selector.matches_expression.mpr ⟨_, hf, hr⟩

end Written

/-- **The texts that are read are the valid ones.** -/
theorem Selector.exists_parse_iff {a : String} :
    (∃ s, Selector.parse a = .ok s) ↔ ∃ w : Written, w.Valid ∧ w.text = a.toList := by
  constructor
  · rintro ⟨s, hs⟩
    obtain ⟨hs, u, body, v, hu, hbody, hv, ha⟩ := read?_trim.mp (parse_eq_ok.mp hs)
    obtain ⟨links, hlinks⟩ := s.exists_ofLinks
    rw [← hlinks, wellFormed_ofLinks] at hs
    rw [← hlinks, renders_ofLinks] at hbody
    obtain ⟨more, hmore, rfl⟩ := hbody
    have key : ∀ (links : List (Separator × Compound)) (more : List Char), RendersLinks links more →
        (∀ l ∈ links, l.2.WellFormed) → ∃ ls : List (Separator × List Char × List Simple),
          (∀ l ∈ ls, l.1.Renders l.2.1 ∧ Writable l.2.2) ∧
            more = ls.flatMap fun (_, blanks, parts) => blanks ++ written parts := by
      intro links
      induction links with
      | nil => exact fun more hmore _ => ⟨[], fun l hl => absurd hl List.not_mem_nil, hmore⟩
      | cons l links ih =>
        rintro more ⟨x, y, hx, hy, rfl⟩ hw
        obtain ⟨hl, hw⟩ := List.forall_mem_cons.mp hw
        obtain ⟨ls, hls, rfl⟩ := ih y hy hw
        refine ⟨(l.1, x, l.2.parts) :: ls, List.forall_mem_cons.mpr ⟨⟨hx, hl.writable⟩, hls⟩, ?_⟩
        rw [List.flatMap_cons, Compound.text_toList, List.append_assoc]
    obtain ⟨ls, hls, rfl⟩ := key links more hmore hs.2
    refine ⟨⟨u, s.head.head.parts, ls, v⟩, ⟨hu, hs.1.writable, hls, hv⟩, ?_⟩
    rw [ha, Compound.text_toList]
    rfl
  · rintro ⟨w, hw, ha⟩
    exact ⟨_, Written.parse_text hw ha.symm⟩

/-! ## Whole texts in other words -/

/-- The compounds of a text are written in other words, and all else is as it was. -/
structure Written.Respelled (w w' : Written) : Prop where
  before : w'.before = w.before
  first : ReflTransGen RespelledParts w.first w'.first
  links : List.Forall₂ (fun l l' => l'.1 = l.1 ∧ l'.2.1 = l.2.1 ∧
    ReflTransGen RespelledParts l.2.2 l'.2.2) w.links w'.links
  after : w'.after = w.after

/-- The second text is the first one in other words. -/
def Respelled (a b : String) : Prop :=
  ∃ w w' : Written, w.Valid ∧ w.text = a.toList ∧ w'.text = b.toList ∧ w.Respelled w'

theorem Written.Respelled.valid {w w' : Written} (h : w.Respelled w') (hw : w.Valid) :
    w'.Valid := by
  have hpairs := (List.forall₂_and_left _ _).mpr ⟨hw.links, h.links⟩
  have hlinks : List.Forall₂ (fun l' _ => (l'.1.Renders l'.2.1 ∧ Writable l'.2.2) ∧ True)
      w'.links w.links := by
    refine (hpairs.imp fun l l' hl => ?_).flip
    obtain ⟨⟨hr, hparts⟩, hsep, hblanks, hrespelled⟩ := hl
    rw [← hsep, ← hblanks] at hr
    exact ⟨⟨hr, writable_of_respelled hrespelled hparts⟩, trivial⟩
  exact ⟨h.before ▸ hw.before, writable_of_respelled h.first hw.first,
    ((List.forall₂_and_left _ _).mp hlinks).1, h.after ▸ hw.after⟩

end MarkupQuery
