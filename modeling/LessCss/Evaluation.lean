import LessCss.Css
import LessCss.Evaluation.Names
import LessCss.Text.Interpolation

/-!
# Evaluation

Evaluation replaces variables by their values, carries out operators, joins selectors and puts the
rules of mixins in the place of their calls.  Definitions take effect in their whole scope, wherever
they stand in it, and are evaluated where they are used.

Evaluation goes along the structure of a node, except where a variable or mixin is looked up: there
it passes on to the definition.  What to do then is a parameter (`Deeper`) of `eval`, and
`Deeper.within` closes the circle, allowing a given number of definitions inside of each other.
`Context.bound` is always enough of them, so that `Context.eval` needs no such number.
-/

namespace LessCss

/-- How definitions are evaluated that a name was found to stand for. -/
structure Deeper where
  /-- Evaluates the definition of a variable. -/
  node : Context → Node → Except Error Node
  /-- Evaluates the rules of a mixin, in a scope of their own. -/
  rules : Context → List Node → Except Error (List Node)

namespace Evaluation

/-! ## Variables and texts with holes -/

/-- The value of a variable. -/
def reference (d : Deeper) (c : Context) (name : String) (offset : Nat) : Except Error Node :=
  match c.definition? name with
  | none => .error (.undefinedVariable name offset)
  | some definition => do d.node (← c.inVariable name) definition

/-- The text of a value as it is put into a hole: a string goes without its quotes. -/
def bareText (s : Style) : Node → Except Error String
  | .quoted _ text _ => .ok text
  | node => Css.inline s node

/-- The text of a part, a hole being filled with the value of its variable. -/
def fillPart (d : Deeper) (c : Context) : Text.Part → Except Error String
  | .plain char => .ok char.toString
  | .hole name offset => do bareText c.style (← reference d c ("@" ++ String.ofList name) offset)

/-- A text with its holes filled. -/
def fill (d : Deeper) (c : Context) (text : String) : Except Error String := do
  return String.join (← (Text.parts text).mapM (fillPart d c))

/-- The elements of a selector with their holes filled. -/
def fillElements (d : Deeper) (c : Context) (es : List Element) : Except Error (List Element) :=
  es.mapM fun e => do return { e with text := ← fill d c e.text }

mutual
/-- A selector with the holes filled, those in the selectors that it extends as well. -/
def fillSelector (d : Deeper) (c : Context) : Selector → Except Error Selector
  | .mk elements extending => do
    let elements ← fillElements d c elements
    return .mk elements (← fillTargets d c extending)
/-- Selectors that are extended, with the holes filled. -/
def fillTargets (d : Deeper) (c : Context) :
    List (Selector × Bool) → Except Error (List (Selector × Bool))
  | [] => .ok []
  | (target, all) :: rest => do
    let target ← fillSelector d c target
    return (target, all) :: (← fillTargets d c rest)
end

/-! ## Numbers -/

/-- The result of an operator: a number if both operands are and the operator is carried out
here. -/
def operation (c : Context) (op : Operator) (left right : Node) (spaced : Bool) (offset : Nat) :
    Except Error Node :=
  match c.computes (some op), left, right with
  | true, .dimension a, .dimension b => do
    let result ← (Dimension.operate op c.style.strict a b).mapError (Error.locate offset)
    return .dimension result
  | _, _, _ => .ok (.operation op left right spaced offset)

/-- The negative of a value: a number is multiplied by minus one if products are carried out
here. -/
def negative (c : Context) (value : Node) : Except Error Node :=
  match c.computes (some .mul), value with
  | true, .dimension d => do
    return .dimension (← Dimension.operate .mul c.style.strict (.ofFloat (-1)) d)
  | _, _ => .ok (.negative value)

/-- The number among some that comes before (`lt`) or after (`gt`) all others, if all compare. -/
def extremum (wanted : Ordering) : List Dimension → Option Dimension
  | [] => none
  | d :: ds =>
    ds.foldlM
      (fun best d => (d.compare? best).map fun order => if order == wanted then d else best)
      d

/-- The least or greatest of some values, if they are numbers that compare. -/
def extremumOf (wanted : Ordering) (args : List Node) : Option Node :=
  (args.mapM Node.dimension?).bind fun ds => (extremum wanted ds).map Node.dimension

/-- A number with another unit, or with none. -/
def changeUnit (s : Style) : List Node → Except Error (Option Node)
  | [.dimension d] => .ok (some (.dimension ⟨d.value, .none⟩))
  | [.dimension d, unit] => do
    return some (.dimension (.ofAtom d.value (← bareText s unit)))
  | _ => .ok none

/-- A number as a percentage. -/
def percentage : List Node → Option Node
  | [.dimension d] => some (.dimension (.ofAtom (d.value * 100) "%"))
  | _ => none

/-- The value of a function that is built in, if it is one and its arguments fit. -/
def builtin (s : Style) (name : String) (args : List Node) : Except Error (Option Node) :=
  match name.map Char.toLower with
  | "min" => .ok (extremumOf .lt args)
  | "max" => .ok (extremumOf .gt args)
  | "unit" => changeUnit s args
  | "percentage" => .ok (percentage args)
  | _ => .ok none

/-- Whether a function is `calc`, inside of which operators are left alone. -/
def isCalc (name : String) : Bool := name.map Char.toLower == "calc"

/-! ## Parentheses -/

/-- The context inside of a row: parentheses count, but for those that are an operand under the
strictest math mode. -/
def insideRow (c : Context) (parens operand : Bool) : Context :=
  if parens && (c.math != .strictLegacy || !operand) then c.inParens else c

/-- Whether the only item of a row has parentheses of its own that are written anyway. -/
def doublesParens (c : Context) (item : Node) : Bool :=
  let (parens, operand) := item.parenFlags
  parens && !operand && !c.inCalc

/-- Writes the parentheses of a row if they are an operand and the operator is not carried out. -/
def keepParens (c : Context) (parens operand double : Bool) (result : Node) : Node :=
  if parens && operand && !c.computes none && !double && result.dimension?.isNone then .paren result
  else result

/-! ## Rules -/

/-- The context for the value of a property.  In `font` a slash is no division outside of
parentheses. -/
def forProperty (c : Context) (name : String) : Context :=
  if name == "font" && c.math == .always then c.withMath .parensDivision else c

/-- Puts loose declarations and comments into a rule set with the selectors around, before all
others. -/
def wrap (selectors : List Selector) (rules : List Node) : List Node :=
  if selectors.isEmpty then rules
  else
    let own := rules.filter Node.isOwn
    let others := rules.filter (!Node.isOwn ·)
    if own.isEmpty then others else .ruleset selectors own false :: others

/-- The at-rules whose rules stand under the selectors around. -/
def keepsSelectors (name : String) : Bool := ["@supports", "@document", "@container"].contains name

/-- The context of the rules of an at-rule: only the rules of some stand under the selectors
around. -/
def insideAtRule (c : Context) (name : String) : Context :=
  if keepsSelectors name then c else c.underSelectors []

/-- The rules of an at-rule, loose declarations being put under the selectors around. -/
def wrapAtRule (c : Context) (name : String) (rules : List Node) : List Node :=
  if keepsSelectors name then wrap c.selectors rules else rules

mutual
/-- Marks all declarations as important, also in nested rule sets and media rules. -/
def makeImportant : Node → Node
  | .declaration name value _ isVariable offset => .declaration name value true isVariable offset
  | .ruleset selectors rules root => .ruleset selectors (makeAllImportant rules) root
  | .media features rules => .media features (makeAllImportant rules)
  | node => node
/-- Marks all declarations among some rules as important. -/
def makeAllImportant : List Node → List Node
  | [] => []
  | node :: nodes => makeImportant node :: makeAllImportant nodes
end

/-- A rule set, given how its rules are evaluated: a whole stylesheet has no selectors, and those of
any other rule set are joined to the ones around. -/
def ruleset (d : Deeper) (c : Context) (selectors : List Selector) (root : Bool)
    (rules : Context → Except Error (List Node)) : Except Error Ruleset := do
  if root then return .ofRules (← rules c)
  else
    let own ← selectors.mapM (fillSelector d c)
    let joined := Selector.joinAll c.selectors own
    return ⟨joined, ← rules (c.underSelectors joined), false⟩

/-! ## Mixins -/

/-- The name of an argument that has one. -/
def argumentName? : Node → Option String
  | .argument name _ => name
  | _ => none

/-- Binds parameters one after the other: to the argument of that name, else to the next argument
without name, else to the default.  A parameter without name takes an argument and binds nothing.
All arguments have to be used. -/
def bindParameters (mixin : String) (offset : Nat) :
    List (Option String × Option Node) → List Node → Bindings Node → Bindings Node →
      Except Error (Bindings Node)
  | [], positional, named, bound =>
    if positional.isEmpty && named.isEmpty then .ok bound
    else .error (.argumentMismatch mixin offset)
  | (none, _) :: params, positional, named, bound =>
    bindParameters mixin offset params positional.tail named bound
  | (some name, default) :: params, positional, named, bound =>
    match named.lookup name, positional, default with
    | some value, _, _ =>
      bindParameters mixin offset params positional (named.remove name) (bound.put name value)
    | none, value :: rest, _ => bindParameters mixin offset params rest named (bound.put name value)
    | none, [], some value => bindParameters mixin offset params [] named (bound.put name value)
    | none, [], none => .error (.missingArgument mixin name offset)

/-- The scope of the parameters of a mixin, for arguments with the given names and values.  A
variable holds all of the values. -/
def argumentFrame (m : Mixin) (mixin : String) (offset : Nat) (args : List (Option String × Node)) :
    Except Error Frame := do
  let positional := args.filterMap fun a => if a.1.isNone then some a.2 else none
  let named := args.foldl
    (fun (b : Bindings Node) a => match a.1 with
      | some name => b.put name a.2
      | none => b) []
  let bound ← bindParameters mixin offset m.params positional named []
  return { values := bound.put "@arguments" (.row (args.map Prod.snd)) }

/-- The rules that take the place of a call, for arguments with the given values. -/
def expand (d : Deeper) (c : Context) (m : Mixin) (name : String) (args values : List Node)
    (important : Bool) (offset : Nat) : Except Error (List Node) := do
  let frame ← argumentFrame m name offset ((args.map argumentName?).zip values)
  -- arguments are matched before the depth is looked at
  let inside ← c.inMixin name
  let rules ← d.rules (inside.inFrame frame) m.rules
  return if important then makeAllImportant rules else rules

/-! ## Nodes -/

mutual
/-- Evaluates a node. -/
def eval (d : Deeper) (c : Context) : Node → Except Error Yield
  | .dimension number => .ok (.one (.dimension number))
  | .expression [] parens operand tight =>
    .ok (.one (keepParens c parens operand false (.expression [] parens operand tight)))
  | .expression [item] parens operand _ => do
    let inside := insideRow c parens operand
    let result ← eval d inside item
    return .one (keepParens c parens operand (doublesParens inside item) result.toNode)
  | .expression items parens operand tight => do
    let results ← evalSplice d (insideRow c parens operand) items
    return .one (keepParens c parens operand false (.expression results parens operand tight))
  | .list [item] => do return .one (← eval d c item).toNode
  | .list items => do return .one (.list (← evalEach d c items))
  | .paren inner => do return .one (.paren (← eval d c inner).toNode)
  | .comment text isLine => .ok (.one (.comment text isLine))
  | .keyword text => .ok (.one (.keyword text))
  | .quoted quote text escaped => do return .one (.quoted quote (← fill d c text) escaped)
  | .url text => do return .one (.url (← fill d c text))
  | .reference name offset => do return .one (← reference d c name offset)
  | .operation op left right spaced offset => do
    let left ← eval d c left
    let right ← eval d c right
    return .one (← operation c op left.toNode right.toNode spaced offset)
  | .negative inner => do
    let value ← eval d c inner
    return .one (← negative c value.toNode)
  | .call name args offset => do
    -- inside of a function other than `calc` operators are carried out again
    let values ← evalEach d (c.inCall (isCalc name)) args
    let result ← builtin c.style name values
    return .one (result.getD (.call name values offset))
  -- definitions have been taken into the scope and leave nothing behind
  | .declaration _ _ _ true _ => .ok .nothing
  | .declaration name value important false offset => do
    let name ← fill d c name
    let value ← (eval d (forProperty c name) value).mapError (Error.locate offset)
    return .one (.declaration name value.toNode important false offset)
  | .selector s => .ok (.one (.selector s))
  | .ruleset selectors rules root => do
    let result ← ruleset d c selectors root fun inside =>
      evalSplice d (inside.inFrame (.ofRules rules)) rules
    return .one result.toNode
  | .atRule name header none => do
    return .one (.atRule name (← evalHeader d c header) none)
  | .atRule name header (some rules) => do
    let header ← evalHeader d c header
    let results ← evalSplice d ((insideAtRule c name).inFrame (.ofRules rules)) rules
    return .one (.atRule name header (some (wrapAtRule c name results)))
  | .media features rules => do
    let features ← eval d c features
    let results ← evalSplice d (c.inFrame (.ofRules rules)) rules
    return .one (.media features.toNode (wrap c.selectors results))
  | .importRule path features options => do
    let path ← eval d c path
    return .one (.importRule path.toNode (← evalHeader d c features) options)
  | .mixin .. => .ok .nothing
  | .mixinCall name args important offset =>
    match c.mixin? name with
    | none => .error (.undefinedMixin name offset)
    | some m => do
      let values ← evalEach d c args
      return .many (← expand d c m name args values important offset)
  | .argument _ value => eval d c value
/-- Evaluates every node of a row to one node. -/
def evalEach (d : Deeper) (c : Context) : List Node → Except Error (List Node)
  | [] => .ok []
  | node :: nodes => do
    let result ← eval d c node
    return result.toNode :: (← evalEach d c nodes)
/-- Evaluates the nodes of a row and puts all results in their place. -/
def evalSplice (d : Deeper) (c : Context) : List Node → Except Error (List Node)
  | [] => .ok []
  | node :: nodes => do
    let result ← eval d c node
    return result.toList ++ (← evalSplice d c nodes)
/-- Evaluates a node that may be missing. -/
def evalHeader (d : Deeper) (c : Context) : Option Node → Except Error (Option Node)
  | none => .ok none
  | some node => do return some (← eval d c node).toNode
end

/-- Evaluates rules in a scope of their own. -/
def evalRules (d : Deeper) (c : Context) (rules : List Node) : Except Error (List Node) :=
  evalSplice d (c.inFrame (.ofRules rules)) rules

end Evaluation

/-! ## Closing the circle -/

namespace Deeper

/-- Evaluates definitions with at most `n` definitions inside of each other. -/
def within : Nat → Deeper
  | 0 => ⟨fun _ _ => .error .unfinished, fun _ _ => .error .unfinished⟩
  | n + 1 =>
    let deeper := within n
    { node := fun c node => do return (← Evaluation.eval deeper c node).toNode
      rules := fun c rules => Evaluation.evalRules deeper c rules }

end Deeper

/-- Evaluates a node. -/
def Context.eval (c : Context) (node : Node) : Except Error Yield :=
  Evaluation.eval (.within (c.bound [node])) c node

/-- Evaluates a rule set, without moving nested rules. -/
def Ruleset.eval (c : Context) (r : Ruleset) : Except Error Ruleset :=
  let d := Deeper.within (c.bound r.rules)
  Evaluation.ruleset d c r.selectors r.root fun inside => Evaluation.evalRules d inside r.rules

end LessCss
