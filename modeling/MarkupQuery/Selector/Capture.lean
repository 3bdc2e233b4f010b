import MarkupQuery.Selector.Pattern

/-!
# Captures

A simple selector can be taken apart by the regular expression of its kind. The expression has
numbered groups, and a match says what each of them took. A text can match in several ways; the one
that counts is the first in the order in which a search with backtracking tries them.

* `Capture`, `CapturePattern`, `CapturePattern.plain`: expressions with groups;
* `CapturePattern.captures`: the matches at the front of a text, from the preferred one on;
* `SimpleKind.capturePattern`: the expressions of the kinds;
* `SimpleKind.selectorOf?`, `SimpleKind.capture?`: the selector that a match stands for.
-/

namespace MarkupQuery

/-! ## Matches -/

/-- A match at the front of a text. -/
structure Capture where
  /-- What was matched. -/
  text : List Char
  /-- What the groups took that took part, each under its number. -/
  groups : List (Nat × List Char)
  /-- What was left. -/
  rest : List Char
deriving DecidableEq

namespace Capture

/-- The match of nothing. -/
def nothing (cs : List Char) : Capture := ⟨[], [], cs⟩

/-- The match of one character. -/
def one (c : Char) (cs : List Char) : Capture := ⟨[c], [], cs⟩

/-- A match and another one behind it. -/
def andThen (m m' : Capture) : Capture := ⟨m.text ++ m'.text, m.groups ++ m'.groups, m'.rest⟩

/-- The match as what a group took. -/
def inGroup (i : Nat) (m : Capture) : Capture :=
  { m with groups := m.groups ++ [(i, m.text)] }

/-- What a group took. The last time counts. -/
def group? (m : Capture) (i : Nat) : Option (List Char) := m.groups.reverse.lookup i

end Capture

/-! ## Expressions with groups -/

/-- A regular expression with numbered groups. -/
inductive CapturePattern where
  /-- One character of a class. -/
  | char (p : Char → Bool)
  /-- One after the other. -/
  | seq (a b : CapturePattern)
  /-- Once, or else not at all. -/
  | opt (a : CapturePattern)
  /-- As often as possible. -/
  | many (a : CapturePattern)
  /-- What the expression takes is kept under a number. -/
  | group (i : Nat) (a : CapturePattern)

/-- The matches of a repetition. More rounds are preferred to fewer, and a round has to take
something. -/
def manyCaptures (round : List Char → List Capture) (cs : List Char) : List Capture :=
  ((round cs).flatMap fun m =>
    if _h : m.rest.length < cs.length then (manyCaptures round m.rest).map m.andThen else []) ++
      [.nothing cs]
termination_by cs.length

namespace CapturePattern

/-- The matches at the front of a text, from the preferred one on. -/
def captures : CapturePattern → List Char → List Capture
  | char _, [] => []
  | char p, c :: cs => if p c then [.one c cs] else []
  | seq a b, cs => (a.captures cs).flatMap fun m => (b.captures m.rest).map m.andThen
  | opt a, cs => a.captures cs ++ [.nothing cs]
  | many a, cs => manyCaptures a.captures cs
  | group i a, cs => (a.captures cs).map (.inGroup i)

/-- The expression without its groups. -/
def plain : CapturePattern → Pattern
  | char p => .char p
  | seq a b => .seq a.plain b.plain
  | opt a => .opt a.plain
  | many a => .many a.plain
  | group _ a => a.plain

/-- One given character. -/
def literal (c : Char) : CapturePattern := char (· = c)

/-- Once or more often. -/
def many1 (a : CapturePattern) : CapturePattern := seq a (many a)

/-- A name. -/
def name (start more : Char → Bool) : CapturePattern := seq (char start) (many (char more))

/-- One class of a run. -/
def dottedName : CapturePattern := seq (literal '.') (many1 (char isIdentChar))

end CapturePattern

/-! ## Simple selectors -/

open CapturePattern

/-- The symbol of an operator. -/
def AttributeOperator.capturePattern : CapturePattern :=
  seq (opt (char fun c => ['~', '|', '^', '$', '*'].contains c)) (literal '=')

/-- Operator and quoted value of an attribute test, in the groups 2 and 3. -/
def AttributeTest.capturePattern : CapturePattern :=
  seq (group 2 AttributeOperator.capturePattern)
    (seq (literal '"') (seq (group 3 (many (char (· ≠ '"')))) (literal '"')))

namespace SimpleKind

/-- The expression of a kind. The group 1 holds the name of an attribute, or an id. -/
def capturePattern : SimpleKind → CapturePattern
  | universal => literal '*'
  | tag => name (·.isAlpha) isIdentChar
  | attr => seq (literal '[') (seq (group 1 (name isAttributeStart isAttributeChar))
      (seq (opt AttributeTest.capturePattern) (literal ']')))
  | id => seq (literal '#') (group 1 (many1 (char isIdentChar)))
  | classes => many1 dottedName

/-- The simple selector that a match of the expression stands for. The words of a run of classes are
what its dots part. -/
def selectorOf? (k : SimpleKind) (m : Capture) : Option Simple :=
  match k with
  | universal => some .universal
  | tag => some (.tag (String.ofList m.text))
  | attr => do
    let name := String.ofList (← m.group? 1)
    match m.group? 2 with
    | some symbol =>
      let operator ← AttributeOperator.ofSymbol? (String.ofList symbol)
      return .attr ⟨name, operator, String.ofList ((m.group? 3).getD [])⟩
    | none => return .attr (.present name)
  | id => (m.group? 1).map fun v => .id (String.ofList v)
  | classes => some (.classes (((m.text.splitOn '.').filter (· ≠ [])).map String.ofList))

/-- The simple selector of a kind that the preferred match at the front of a text stands for, with
the number of bytes matched in UTF-8. -/
def capture? (k : SimpleKind) (input : String) : Option (Simple × Nat) := do
  let m ← (k.capturePattern.captures input.toList).head?
  let s ← k.selectorOf? m
  return (s, (String.ofList m.text).utf8ByteSize)

end SimpleKind

end MarkupQuery
