import MarkupQuery.Document
import MarkupQuery.Query.Search
import MarkupQuery.Selector.Parse

/-!
# Queries

A selector, compiled or as text, is asked for its first node or for all its nodes below a context,
or whether it describes a given node.

* `Selector.select`, `Selector.first?`, `Selector.all`, `Selector.describes`;
* **`Selector.described_eq_filter`**: what a selector describes is decided node by node;
* `Tree.queryFirst`, `Tree.queryAll`, `Tree.queryAllWith` from a text;
* the same from a document and from an element.
-/

namespace MarkupQuery

/-! ## Compiled selectors -/

namespace Selector

/-- The nodes below a context that a selector describes. -/
def select (s : Selector) (t : Tree) (context : NodeId) (options : QueryOptions) : NodeList :=
  Search.run { tree := t, context, lookup := t.soleOwner?, options } s

/-- The first node below a context. -/
def first? (s : Selector) (t : Tree) (context : NodeId) : Option NodeId :=
  (s.select t context .firstOnly).item? 0

/-- All nodes below a context. -/
def all (s : Selector) (t : Tree) (context : NodeId) : NodeList := s.select t context {}

/-- The node is an element, and among those found from the top of its tree. -/
def describes (s : Selector) (t : Tree) (n : NodeId) : Bool :=
  t.isElement n && (s.all t (t.top n)).contains n

/-- The nodes of a list that a selector describes. The second argument remembers what has been found
from which top. -/
def describedAmong (s : Selector) (t : Tree) :
    List NodeId → Std.HashMap NodeId (Std.HashSet NodeId) → List NodeId
  | [], _ => []
  | n :: ns, found =>
    if t.isElement n then
      let top := t.top n
      match found[top]? with
      | some below =>
        if below.contains n then n :: s.describedAmong t ns found else s.describedAmong t ns found
      | none =>
        let below := Std.HashSet.ofList (s.all t top).toList
        let found := found.insert top below
        if below.contains n then n :: s.describedAmong t ns found else s.describedAmong t ns found
    else s.describedAmong t ns found

theorem describedAmong_eq_filter (s : Selector) (t : Tree) (ns : List NodeId)
    (found : Std.HashMap NodeId (Std.HashSet NodeId))
    (h : ∀ top below, found[top]? = some below →
      below = Std.HashSet.ofList (s.all t top).toList) :
    s.describedAmong t ns found = ns.filter (s.describes t) := by
  have key (n : NodeId) :
      (Std.HashSet.ofList (s.all t (t.top n)).toList).contains n =
        (s.all t (t.top n)).contains n := by
    rw [Std.HashSet.contains_ofList, NodeList.toList, NodeList.contains, Array.contains_toList]
  induction ns generalizing found with
  | nil => rfl
  | cons n ns ih =>
    simp only [describedAmong, List.filter_cons, describes]
    by_cases he : t.isElement n
    · simp only [he, if_true, Bool.true_and]
      split
      · rename_i below hb
        rw [h _ _ hb, key, ih found h]
      · rw [key, ih]
        intro top below hb
        rw [Std.HashMap.getElem?_insert] at hb
        split at hb
        · rename_i ht
          rw [← beq_iff_eq.1 ht]
          exact (Option.some.inj hb).symm
        · exact h _ _ hb
    · simp [he, ih found h]

/-- The nodes of a tree that a selector describes, in order of creation. -/
def described (s : Selector) (t : Tree) : List NodeId := s.describedAmong t t.ids ∅

/-- **What a selector describes is decided node by node.** -/
theorem described_eq_filter (s : Selector) (t : Tree) :
    s.described t = t.ids.filter (s.describes t) :=
  s.describedAmong_eq_filter t _ _ fun _ _ h => by simp at h

end Selector

/-! ## Selectors as text -/

namespace Tree

/-- The nodes below a context that a text describes, with a given id index. -/
def queryAllIndexed (t : Tree) (lookup : String → Option NodeId) (context : NodeId) (text : String)
    (options : QueryOptions) : Except SelectorError NodeList :=
  (Selector.parse text).map (Search.run { tree := t, context, lookup, options })

/-- The nodes below a context that a text describes, with options. -/
def queryAllWith (t : Tree) (context : NodeId) (text : String) (options : QueryOptions) :
    Except SelectorError NodeList :=
  t.queryAllIndexed t.soleOwner? context text options

/-- All nodes below a context that a text describes. -/
def queryAll (t : Tree) (context : NodeId) (text : String) : Except SelectorError NodeList :=
  t.queryAllWith context text {}

/-- The first node below a context that a text describes. -/
def queryFirst (t : Tree) (context : NodeId) (text : String) :
    Except SelectorError (Option NodeId) :=
  (t.queryAllWith context text .firstOnly).map (·.item? 0)

end Tree

namespace Document

/-- All nodes of a document that a text describes. -/
def queryAll (d : Document) (text : String) : Except SelectorError NodeList :=
  d.tree.queryAll .root text

/-- The first node of a document that a text describes. -/
def queryFirst (d : Document) (text : String) : Except SelectorError (Option NodeId) :=
  d.tree.queryFirst .root text

end Document

namespace ElementAt

variable {t : Tree}

/-- All nodes below an element that a text describes. -/
def queryAll (e : ElementAt t) (text : String) : Except SelectorError NodeList :=
  t.queryAll e.id text

/-- The first node below an element that a text describes. -/
def queryFirst (e : ElementAt t) (text : String) : Except SelectorError (Option NodeId) :=
  t.queryFirst e.id text

end ElementAt

end MarkupQuery
