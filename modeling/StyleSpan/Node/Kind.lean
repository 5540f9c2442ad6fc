import StyleSpan.Code
import StyleSpan.Text.Basic

/-!
# StyleSpan.Node.Kind

The kinds of nodes of a stylesheet syntax tree, with their display names.
Distinct kinds have distinct names (`ofName?_name`).
-/

namespace StyleSpan

/-- The kinds: nodes of the stylesheet itself, of selectors, and of values. -/
inductive Kind where
  | root
  | rule
  | atRule
  | declaration
  | comment
  | selectorRoot
  | selector
  | selectorComment
  | selectorTag
  | selectorClass
  | selectorId
  | selectorAttribute
  | selectorPseudo
  | selectorCombinator
  | selectorNesting
  | selectorUniversal
  | selectorUnknown
  | valueRoot
  | valueUnknown
  | valueCommaGroup
  | valueParenGroup
  | valueFunc
  | valueParen
  | valueNumber
  | valueOperator
  | valueWord
  | valueColon
  | valueComma
  | valueString
  | valueAtWord
  | valueUnicodeRange
  | valueComment
deriving DecidableEq, Repr

namespace Kind

/-- The display name of a kind. -/
def name (k : Kind) : Text :=
  Text.ascii <| match k with
  | root => "css-root"
  | rule => "css-rule"
  | atRule => "css-atrule"
  | declaration => "css-decl"
  | comment => "css-comment"
  | selectorRoot => "selector-root"
  | selector => "selector-selector"
  | selectorComment => "selector-comment"
  | selectorTag => "selector-tag"
  | selectorClass => "selector-class"
  | selectorId => "selector-id"
  | selectorAttribute => "selector-attribute"
  | selectorPseudo => "selector-pseudo"
  | selectorCombinator => "selector-combinator"
  | selectorNesting => "selector-nesting"
  | selectorUniversal => "selector-universal"
  | selectorUnknown => "selector-unknown"
  | valueRoot => "value-root"
  | valueUnknown => "value-unknown"
  | valueCommaGroup => "value-comma_group"
  | valueParenGroup => "value-paren_group"
  | valueFunc => "value-func"
  | valueParen => "value-paren"
  | valueNumber => "value-number"
  | valueOperator => "value-operator"
  | valueWord => "value-word"
  | valueColon => "value-colon"
  | valueComma => "value-comma"
  | valueString => "value-string"
  | valueAtWord => "value-atword"
  | valueUnicodeRange => "value-unicode-range"
  | valueComment => "value-comment"

/-- All kinds, in the order of their numbers. -/
def all : List Kind :=
  [root, rule, atRule, declaration, comment, selectorRoot, selector, selectorComment, selectorTag,
    selectorClass, selectorId, selectorAttribute, selectorPseudo, selectorCombinator,
    selectorNesting, selectorUniversal, selectorUnknown, valueRoot, valueUnknown, valueCommaGroup,
    valueParenGroup, valueFunc, valueParen, valueNumber, valueOperator, valueWord, valueColon,
    valueComma, valueString, valueAtWord, valueUnicodeRange, valueComment]

/-- The name of a numbered kind. -/
def nameOfCode (code : Int) : Text :=
  ((Code.decode? all code).map name).getD (Text.ascii "unknown")

/-- The kind of a display name. -/
def ofName? (t : Text) : Option Kind := all.find? fun k => k.name = t

/-- Whether nodes of the kind carry a text of their own, to which the positions
below them are relative. -/
def isValueRoot (k : Kind) : Bool := k = valueRoot || k = valueUnknown

theorem mem_all (k : Kind) : k ∈ all := by cases k <;> decide

private theorem ofName?_name_of_mem : ∀ k ∈ all, ofName? k.name = some k := by decide +kernel

/-- A kind is read back from its name. -/
@[simp] theorem ofName?_name (k : Kind) : ofName? k.name = some k :=
  ofName?_name_of_mem k (mem_all k)

/-- Distinct kinds have distinct names. -/
theorem name_injective {j k : Kind} (h : j.name = k.name) : j = k :=
  Option.some.inj (by rw [← ofName?_name j, h, ofName?_name])

end Kind

end StyleSpan
