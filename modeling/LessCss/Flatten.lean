import LessCss.Node

/-!
# Taking nested rules apart

Plain stylesheets do not nest rule sets.  A rule set keeps its declarations and comments, and what
else was in it follows behind it.  A media rule keeps its rules except media rules, which follow
behind it under both conditions.  Other at-rules stay where they are.  Mixins are left out.
-/

namespace LessCss

namespace Node

/-! ## Media conditions -/

/-- The single queries of a media condition. -/
def queries : Node → List Node
  | list items => items
  | node => [node]

/-- The condition that holds where both do: every query of one together with every query of the
other. -/
def bothQueries (outer inner : Node) : Node :=
  list (outer.queries.flatMap fun a => inner.queries.map fun b => row [a, keyword "and", b])

/-- Whether a node is a media rule. -/
def isMedia : Node → Bool
  | media .. => true
  | _ => false

/-- A media rule under a further condition; other nodes are left alone. -/
def underMedia (outer : Node) : Node → Node
  | media inner rules => media (bothQueries outer inner) rules
  | node => node

/-- A rule set with the declarations and comments among some rules, unless there are none. -/
def ownRuleset (selectors : List Selector) (rules : List Node) (root : Bool) : List Node :=
  let own := rules.filter isOwn
  if own.isEmpty then [] else [ruleset selectors own root]

/-- A media rule with those of some rules that are not media rules, and those that are behind it. -/
def splitMedia (features : Node) (rules : List Node) : List Node :=
  let inner := rules.filter (!isMedia ·)
  (if inner.isEmpty then [] else [media features inner])
    ++ (rules.filter isMedia).map (underMedia features)

/-! ## Rules -/

mutual
/-- The rules that take the place of a rule, none of them a rule set with others inside. -/
def unnest : Node → List Node
  | ruleset selectors rules root => ownRuleset selectors rules root ++ unnestRest rules
  | media features rules => splitMedia features (unnestAll rules)
  | atRule name header (some rules) => [atRule name header (some (unnestAll rules))]
  | mixin .. | mixinCall .. => []
  | node => [node]
/-- The rules that take the place of a row of rules. -/
def unnestAll : List Node → List Node
  | [] => []
  | node :: nodes => unnest node ++ unnestAll nodes
/-- The rules that take the place of those that are neither declarations nor comments. -/
def unnestRest : List Node → List Node
  | [] => []
  | node :: nodes => (if node.isOwn then [] else unnest node) ++ unnestRest nodes
end

mutual
/-- The nodes that take the place of a node.  Whole stylesheets stay whole, and inside of them and
of values every rule is taken apart. -/
def flatten : Node → List Node
  | ruleset selectors rules true => [ruleset selectors (flattenAll rules) true]
  | ruleset selectors rules false => unnest (ruleset selectors rules false)
  | media features rules => unnest (media features rules)
  | atRule name header rules => unnest (atRule name header rules)
  | mixin .. | mixinCall .. => []
  | expression items parens operand tight => [expression (flattenAll items) parens operand tight]
  | list items => [list (flattenAll items)]
  | paren inner => [paren (ofNodes (flatten inner))]
  | operation op left right spaced offset =>
    [operation op (ofNodes (flatten left)) (ofNodes (flatten right)) spaced offset]
  | negative inner => [negative (ofNodes (flatten inner))]
  | call name args offset => [call name (flattenAll args) offset]
  | declaration name value important isVariable offset =>
    [declaration name (ofNodes (flatten value)) important isVariable offset]
  | importRule path features options =>
    [importRule (ofNodes (flatten path)) (flattenHeader features) options]
  | argument name value => [argument name (ofNodes (flatten value))]
  | dimension d => [dimension d]
  | comment text isLine => [comment text isLine]
  | keyword text => [keyword text]
  | quoted quote text escaped => [quoted quote text escaped]
  | url text => [url text]
  | reference name offset => [reference name offset]
  | selector s => [selector s]
/-- The nodes that take the place of a row of nodes. -/
def flattenAll : List Node → List Node
  | [] => []
  | node :: nodes => flatten node ++ flattenAll nodes
/-- The node that takes the place of one that may be missing. -/
def flattenHeader : Option Node → Option Node
  | none => none
  | some node => some (ofNodes (flatten node))
end

end Node

/-- Takes the nested rules of a stylesheet apart.  Of something else than a whole stylesheet the
first of the rules that result is kept. -/
def Ruleset.flatten (r : Ruleset) : Ruleset :=
  match r.toNode.flatten with
  | .ruleset selectors rules root :: _ => ⟨selectors, rules, root⟩
  | node :: _ => .ofRules [node]
  | [] => .ofRules []

end LessCss
