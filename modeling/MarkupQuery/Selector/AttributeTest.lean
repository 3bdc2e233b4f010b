import MarkupQuery.Text.Blank

/-!
# Attribute tests

A test compares the value of one attribute with a given value, in one of seven ways.

* `AttributeOperator` with its symbols (`AttributeOperator.symbol`, `AttributeOperator.ofSymbol?`);
* `AttributeTest`, `AttributeTest.accepts`, `AttributeTest.text`.
-/

namespace MarkupQuery

/-! ## Operators -/

/-- A way to compare a value with the value of a test. -/
inductive AttributeOperator where
  /-- The value is not empty. -/
  | present
  /-- The two are equal. -/
  | equals
  /-- One word of the value is the given one. -/
  | includes
  /-- The value is the given one, or begins with it and a hyphen. -/
  | dashMatch
  /-- The value begins with the given one. -/
  | startsWith
  /-- The value ends with the given one. -/
  | endsWith
  /-- The given one occurs in the value. -/
  | contains
deriving DecidableEq

namespace AttributeOperator

/-- The symbol between name and value; a test for presence has none. -/
def symbol : AttributeOperator → String
  | present => ""
  | equals => "="
  | includes => "~="
  | dashMatch => "|="
  | startsWith => "^="
  | endsWith => "$="
  | contains => "*="

/-- The operators that have a symbol. -/
def withSymbol : List AttributeOperator :=
  [equals, includes, dashMatch, startsWith, endsWith, contains]

/-- The operator of a symbol. -/
def ofSymbol? (s : String) : Option AttributeOperator := withSymbol.find? (·.symbol = s)

end AttributeOperator

/-! ## Tests -/

/-- A name, an operator and a value to compare with. -/
structure AttributeTest where
  name : String
  operator : AttributeOperator
  value : String
deriving DecidableEq

/-- `token` occurs in a text as a run of neighbouring characters. -/
def occursIn (token : List Char) : List Char → Bool
  | [] => token.isEmpty
  | c :: cs => token.isPrefixOf (c :: cs) || occursIn token cs

namespace AttributeTest

/-- The test that an attribute is there with some text. -/
def present (name : String) : AttributeTest := ⟨name, .present, ""⟩

/-- The value `v` passes the test. An absent attribute is to be read as the empty value. -/
def accepts (test : AttributeTest) (v : String) : Bool :=
  match test.operator with
  | .present => v ≠ ""
  | .equals => v = test.value
  | .includes => (words v).contains test.value
  | .dashMatch => v = test.value || (test.value.toList ++ ['-']).isPrefixOf v.toList
  | .startsWith => test.value.toList.isPrefixOf v.toList
  | .endsWith => test.value.toList.isSuffixOf v.toList
  | .contains => occursIn test.value.toList v.toList

/-- The written form of a test. -/
def text (test : AttributeTest) : String :=
  match test.operator with
  | .present => "[" ++ test.name ++ "]"
  | op => "[" ++ test.name ++ op.symbol ++ "\"" ++ test.value ++ "\"]"

end AttributeTest

end MarkupQuery
