import LessCss.Dimension
import LessCss.Selector

/-!
# Nodes

The parts of a stylesheet: values, declarations, rule sets, at-rules and mixins.  One type holds
them all, because a node of any sort can stand wherever nodes stand.  Places in the source are
bytes.
-/

namespace LessCss

/-- A part of a stylesheet. -/
inductive Node
  | dimension (number : Dimension)
  /-- A row of values.  `parens` tells whether it stood in parentheses, `operand` whether these were
  an operand of an operator, and `tight` whether it is written without spaces. -/
  | expression (items : List Node) (parens operand tight : Bool)
  /-- Values between commas. -/
  | list (items : List Node)
  /-- A value whose parentheses are written. -/
  | paren (inner : Node)
  | comment (text : String) (isLine : Bool)
  | keyword (text : String)
  /-- A string; an escaped one is written without its quotes. -/
  | quoted (quote : Char) (text : String) (escaped : Bool)
  /-- An address, as it was written. -/
  | url (text : String)
  /-- A variable; the name includes the at sign. -/
  | reference (name : String) (offset : Nat)
  | operation (op : Operator) (left right : Node) (spaced : Bool) (offset : Nat)
  | negative (inner : Node)
  | call (name : String) (args : List Node) (offset : Nat)
  /-- A property, or a variable if `isVariable`, with its value. -/
  | declaration (name : String) (value : Node) (important isVariable : Bool) (offset : Nat)
  | selector (selector : Selector)
  /-- Rules under selectors.  The whole stylesheet is a rule set with `root`, which has no
  selectors. -/
  | ruleset (selectors : List Selector) (rules : List Node) (root : Bool)
  /-- An at-rule with or without block; the name includes the at sign. -/
  | atRule (name : String) (header : Option Node) (rules : Option (List Node))
  | media (features : Node) (rules : List Node)
  | importRule (path : Node) (features : Option Node) (options : List String)
  /-- A mixin.  A parameter has a name, a default, or both; the guard is kept as it was written. -/
  | mixin (name : String) (params : List (Option String × Option Node)) (guard : Option String)
      (rules : List Node)
  | mixinCall (name : String) (args : List Node) (important : Bool) (offset : Nat)
  /-- An argument of a call, perhaps with the name of its parameter. -/
  | argument (name : Option String) (value : Node)
  deriving Repr, Inhabited

/-- The sorts of nodes. -/
inductive NodeSort
  | dimension
  | expression
  | list
  | paren
  | comment
  | keyword
  | quoted
  | url
  | reference
  | operation
  | negative
  | call
  | declaration
  | selector
  | ruleset
  | atRule
  | media
  | importRule
  | mixin
  | mixinCall
  | argument
  deriving DecidableEq, Repr

namespace NodeSort

/-- Every sort, in order of declaration. -/
def all : List NodeSort :=
  [dimension, expression, list, paren, comment, keyword, quoted, url, reference,
    operation, negative,
   call, declaration, selector, ruleset, atRule, media, importRule, mixin, mixinCall, argument]

/-- The name of a sort in listings. -/
def name : NodeSort → String
  | dimension => "Dimension"
  | expression => "Expression"
  | list => "Value"
  | paren => "Paren"
  | comment => "Comment"
  | keyword => "Keyword"
  | quoted => "Quoted"
  | url => "Url"
  | reference => "Variable"
  | operation => "Operation"
  | negative => "Negative"
  | call => "Call"
  | declaration => "Declaration"
  | selector => "Selector"
  | ruleset => "Ruleset"
  | atRule => "AtRule"
  | media => "Media"
  | importRule => "Import"
  | mixin => "MixinDefinition"
  | mixinCall => "MixinCall"
  | argument => "MixinArg"

/-- The sort with a given name. -/
def ofName? (s : String) : Option NodeSort := all.find? (·.name == s)

end NodeSort

namespace Node

/-- The sort of a node. -/
def sort : Node → NodeSort
  | dimension .. => .dimension
  | expression .. => .expression
  | list .. => .list
  | paren .. => .paren
  | comment .. => .comment
  | keyword .. => .keyword
  | quoted .. => .quoted
  | url .. => .url
  | reference .. => .reference
  | operation .. => .operation
  | negative .. => .negative
  | call .. => .call
  | declaration .. => .declaration
  | selector .. => .selector
  | ruleset .. => .ruleset
  | atRule .. => .atRule
  | media .. => .media
  | importRule .. => .importRule
  | mixin .. => .mixin
  | mixinCall .. => .mixinCall
  | argument .. => .argument

/-- A row of values without parentheses. -/
def row (items : List Node) : Node := expression items false false false

/-- The one node of a list, or a row of all of them. -/
def ofNodes : List Node → Node
  | [node] => node
  | nodes => row nodes

/-- The number that a node is. -/
def dimension? : Node → Option Dimension
  | dimension d => some d
  | _ => none

/-- Whether a node is a row in parentheses, and whether these are an operand. -/
def parenFlags : Node → Bool × Bool
  | expression _ parens operand _ => (parens, operand)
  | _ => (false, false)

/-- Whether a node stays with the selectors of the rule set around it: a declaration or a
comment. -/
def isOwn : Node → Bool
  | declaration .. | comment .. => true
  | _ => false

end Node

/-- Rules under selectors, or a whole stylesheet. -/
structure Ruleset where
  selectors : List Selector
  rules : List Node
  root : Bool
  deriving Repr, Inhabited

namespace Ruleset

/-- A whole stylesheet. -/
def ofRules (rules : List Node) : Ruleset := ⟨[], rules, true⟩

/-- A rule set as a node. -/
def toNode (r : Ruleset) : Node := .ruleset r.selectors r.rules r.root

end Ruleset

/-- A mixin as it is looked up: its parameters, its guard and its rules. -/
structure Mixin where
  name : String
  params : List (Option String × Option Node)
  guard : Option String
  rules : List Node
  deriving Repr, Inhabited

/-- A mixin as a node. -/
def Mixin.toNode (m : Mixin) : Node := .mixin m.name m.params m.guard m.rules

/-! ## Results of evaluation -/

/-- What a node evaluates to: one node, several nodes that take its place, or nothing. -/
inductive Yield
  | one (node : Node)
  | many (nodes : List Node)
  | nothing
  deriving Repr, Inhabited

namespace Yield

/-- The nodes that take the place of the evaluated one. -/
def toList : Yield → List Node
  | one node => [node]
  | many nodes => nodes
  | nothing => []

/-- A single node, for a place that holds just one: several nodes, or none, become a row. -/
def toNode : Yield → Node
  | one node => node
  | many nodes => .row nodes
  | nothing => .row []

end Yield

end LessCss
