import MarkupQuery.Selector.Parse

/-!
# Regular expressions

The grammar of selectors as one regular expression, made of the expressions of its pieces. It says
which texts are selectors, and nothing of how they are read.

* `Pattern`, `Pattern.Matches`;
* `SimpleKind.expression`, `Combinator.expression`;
* `Compound.expression`, `Alternative.expression`, `Selector.expression`.
-/

namespace MarkupQuery

/-! ## Patterns -/

/-- A regular expression. -/
inductive Pattern where
  /-- The empty text. -/
  | empty
  /-- One character of a class. -/
  | char (p : Char → Bool)
  /-- One after the other. -/
  | seq (a b : Pattern)
  /-- One or the other. -/
  | alt (a b : Pattern)
  /-- Any number of times. -/
  | many (a : Pattern)

namespace Pattern

/-- The expression matches a whole text. -/
def Matches : Pattern → List Char → Prop
  | empty, w => w = []
  | char p, w => ∃ c, p c = true ∧ w = [c]
  | seq a b, w => ∃ u v, a.Matches u ∧ b.Matches v ∧ w = u ++ v
  | alt a b, w => a.Matches w ∨ b.Matches w
  | many a, w => ∃ l : List (List Char), (∀ u ∈ l, a.Matches u) ∧ w = l.flatten

/-- One given character. -/
def literal (c : Char) : Pattern := char (· = c)

/-- Once or more often. -/
def many1 (a : Pattern) : Pattern := seq a (many a)

/-- Once or not at all. -/
def opt (a : Pattern) : Pattern := alt empty a

/-- Any amount of white space. -/
def blanks : Pattern := many (char isBlank)

/-- A symbol with any amount of white space around it. -/
def around (c : Char) : Pattern := seq blanks (seq (literal c) blanks)

/-- A name. -/
def name (start more : Char → Bool) : Pattern := seq (char start) (many (char more))

end Pattern

/-! ## The grammar -/

open Pattern

/-- An identifier. -/
def identExpression : Pattern := many1 (char isIdentChar)

/-- The symbol of an operator. -/
def AttributeOperator.expression : Pattern :=
  seq (opt (char fun c => ['~', '|', '^', '$', '*'].contains c)) (literal '=')

/-- The simple selectors of a kind. -/
def SimpleKind.expression : SimpleKind → Pattern
  | universal => literal '*'
  | tag => Pattern.name (·.isAlpha) isIdentChar
  | attr => seq (literal '[') (seq (Pattern.name isAttributeStart isAttributeChar)
      (seq (opt (seq AttributeOperator.expression
        (seq (literal '"') (seq (many (char (· ≠ '"'))) (literal '"'))))) (literal ']')))
  | id => seq (literal '#') identExpression
  | classes => many1 (seq (literal '.') identExpression)

/-- A simple selector that may only lead. -/
def Simple.leadExpression : Pattern :=
  alt SimpleKind.universal.expression SimpleKind.tag.expression

/-- Any other simple selector. -/
def Simple.partExpression : Pattern :=
  alt SimpleKind.attr.expression (alt SimpleKind.id.expression SimpleKind.classes.expression)

/-- A compound. -/
def Compound.expression : Pattern :=
  alt (seq Simple.leadExpression (many Simple.partExpression)) (many1 Simple.partExpression)

/-- The text of a combinator. -/
def Combinator.expression (k : Combinator) : Pattern :=
  match k.symbol? with
  | some c => around c
  | none => many1 (char isBlank)

/-- The text of any combinator. -/
def Combinator.anyExpression : Pattern :=
  alt descendant.expression
    (alt child.expression (alt adjacentSibling.expression generalSibling.expression))

/-- An alternative. -/
def Alternative.expression : Pattern :=
  seq Compound.expression (many (seq Combinator.anyExpression Compound.expression))

/-- A selector without outer blanks. -/
def Selector.expression : Pattern :=
  seq Alternative.expression (many (seq (around ',') Alternative.expression))

end MarkupQuery
