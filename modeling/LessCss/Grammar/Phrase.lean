/-!
# Phrases

A phrase is a construct of the language that has a name: a statement list, a selector, an operand.
The grammar says what each phrase may start with, and the tree of a stylesheet is labelled with
them.
-/

namespace LessCss

/-- The named constructs of the language. -/
inductive Phrase
  | statements
  | rulesetOrMixin
  | selectorList
  | extendClause
  | selector
  | simpleSelector
  | elementName
  | selectorPart
  | pseudo
  | attributeSelector
  | combinator
  | block
  | declaration
  | name
  | assignment
  | value
  | expression
  | sum
  | product
  | operand
  | parens
  | arguments
  | argument
  | guard
  | atRule
  | importRule
  | pluginRule
  | pluginArguments
  | mediaRule
  | mediaList
  | mediaQuery
  | generalAtRule
  deriving DecidableEq, Repr, Inhabited

namespace Phrase

/-- Every phrase, in order of declaration. -/
def all : List Phrase :=
  [statements, rulesetOrMixin, selectorList, extendClause, selector, simpleSelector, elementName,
   selectorPart, pseudo, attributeSelector, combinator, block, declaration, name, assignment, value,
   expression, sum, product, operand, parens, arguments, argument, guard, atRule, importRule,
   pluginRule, pluginArguments, mediaRule, mediaList, mediaQuery, generalAtRule]

/-- The title of a phrase in messages. -/
def title : Phrase → String
  | statements => "Primary"
  | rulesetOrMixin => "RulesetOrMixin"
  | selectorList => "SelectorList"
  | extendClause => "ExtendRule"
  | selector => "Selector"
  | simpleSelector => "SimpleSelector"
  | elementName => "ElementName"
  | selectorPart => "SimpleSelectorSuffix"
  | pseudo => "Pseudo"
  | attributeSelector => "Attrib"
  | combinator => "Combinator"
  | block => "Block"
  | declaration => "Declaration"
  | name => "InterpolatedIdent"
  | assignment => "VariableAssign"
  | value => "Value"
  | expression => "Expression"
  | sum => "Additive"
  | product => "Multiplicative"
  | operand => "Operand"
  | parens => "ParenBlock"
  | arguments => "Args"
  | argument => "MixinArg"
  | guard => "Guard"
  | atRule => "AtRule"
  | importRule => "ImportAtRule"
  | pluginRule => "PluginAtRule"
  | pluginArguments => "PluginArgs"
  | mediaRule => "MediaAtRule"
  | mediaList => "MediaList"
  | mediaQuery => "MediaQuery"
  | generalAtRule => "GeneralAtRule"

/-- The phrase with a given title. -/
def ofTitle? (s : String) : Option Phrase := all.find? (·.title == s)

theorem mem_all (p : Phrase) : p ∈ all := by cases p <;> decide

/-- The place of a phrase in the order of declaration. -/
def index (p : Phrase) : Fin 32 := ⟨p.ctorIdx, by cases p <;> decide⟩

/-- The phrase at a place in the order of declaration. -/
def ofIndex (i : Fin 32) : Phrase := all[i]

@[simp] theorem ofIndex_index (p : Phrase) : ofIndex p.index = p := by cases p <;> rfl

/-- A value for every phrase, held in memory. -/
structure Table (α : Type) where
  entries : Vector α 32

namespace Table

/-- The value for a phrase. -/
def get {α : Type} (t : Table α) (p : Phrase) : α := t.entries[p.index]

/-- The table of the values of a function. -/
def tabulate {α : Type} (f : Phrase → α) : Table α := ⟨Vector.ofFn fun i => f (ofIndex i)⟩

@[simp] theorem get_tabulate {α : Type} (f : Phrase → α) (p : Phrase) :
    (tabulate f).get p = f p := by
  simp [get, tabulate]

end Table

end Phrase

end LessCss
