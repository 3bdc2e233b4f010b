import MarkupQuery.Selector.Simple

/-!
# Selectors

A selector is a list of alternatives; an alternative is a chain of compounds, each led to by a
combinator from the one on its left.

* `Combinator` with `Combinator.symbol?`, `Combinator.ofSymbol?`, `Combinator.text`;
* `Alternative` with `Alternative.steps`, `Alternative.text`;
* `Selector` with `Selector.alternatives`, `Selector.text`, the canonical text.
-/

namespace MarkupQuery

/-! ## Combinators -/

/-- How an element is placed relative to the one matched on its left. -/
inductive Combinator where
  /-- Anywhere below it. -/
  | descendant
  /-- A child of it. -/
  | child
  /-- The very next sibling, text and comments counted. -/
  | adjacentSibling
  /-- Any later sibling. -/
  | generalSibling
deriving DecidableEq

namespace Combinator

/-- All combinators. -/
def all : List Combinator := [descendant, child, adjacentSibling, generalSibling]

/-- The symbol of a combinator; the one that is written as blanks has none. -/
def symbol? : Combinator → Option Char
  | descendant => none
  | child => some '>'
  | adjacentSibling => some '+'
  | generalSibling => some '~'

/-- The combinator of a symbol. -/
def ofSymbol? (c : Char) : Option Combinator := all.find? (·.symbol? = some c)

/-- The written form of a combinator, with its blanks. -/
def text (k : Combinator) : String :=
  match k.symbol? with
  | some c => String.ofList [' ', c, ' ']
  | none => " "

end Combinator

/-! ## Alternatives -/

/-- A chain of compounds: the leftmost, and each further one with the combinator before it. -/
structure Alternative where
  head : Compound
  tail : List (Combinator × Compound)
deriving DecidableEq

namespace Alternative

/-- A chain with one more compound in front. -/
def cons (c : Compound) (k : Combinator) (a : Alternative) : Alternative :=
  ⟨c, (k, a.head) :: a.tail⟩

/-- The compounds of a chain, each with the combinator that follows it. -/
def stepsFrom (c : Compound) : List (Combinator × Compound) → List (Compound × Option Combinator)
  | [] => [(c, none)]
  | (k, d) :: rest => (c, some k) :: stepsFrom d rest

/-- The compounds of an alternative, each with the combinator that follows it. -/
def steps (a : Alternative) : List (Compound × Option Combinator) := stepsFrom a.head a.tail

/-- The written form of an alternative. -/
def text (a : Alternative) : String :=
  a.head.text ++ String.join (a.tail.map fun (k, c) => k.text ++ c.text)

end Alternative

/-! ## Selectors -/

/-- One or more alternatives. -/
structure Selector where
  head : Alternative
  tail : List Alternative
deriving DecidableEq

namespace Selector

/-- The alternatives, from left to right. -/
def alternatives (s : Selector) : List Alternative := s.head :: s.tail

/-- The canonical text of a selector. -/
def text (s : Selector) : String := ", ".intercalate (s.alternatives.map (·.text))

end Selector

end MarkupQuery
