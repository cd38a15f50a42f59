import LessCss.Evaluation

/-!
# Evaluation in place

`Context.eval` makes a context of its own for everything that it enters.  Here there is one context
for all of an evaluation, a *session*, and evaluation changes it: on entering something it makes a
change and notes what has to be undone (`Exit`), and on leaving it undoes just that.  A count goes
down by one, a stack loses what is on top, a setting gets its old value back.  Leaving is done in
any case, also after an error.

Everything that depends on the session looks it up at the moment it is needed, so that what an inner
evaluation left behind would show in all that follows.
-/

namespace LessCss

/-! ## Sessions -/

/-- The one context of an evaluation, with the stacks of all that is around. -/
structure Session where
  math : MathMode
  style : Style
  mathOn : Bool := true
  inCalc : Bool := false
  parens : Nat := 0
  mixinDepth : Nat := 0
  /-- The scopes around, the innermost first. -/
  frames : List Frame := []
  /-- The variables whose evaluation is under way, the innermost first. -/
  pending : List String := []
  /-- The joined selectors of everything around that has set them, the innermost first. -/
  selectors : List (List Selector) := []
  deriving Repr

/-- Something to enter. -/
inductive Entry
  | parens
  | call (isCalc : Bool)
  | math (mode : MathMode)
  | frame (frame : Frame)
  | selectors (selectors : List Selector)
  /-- The definition of a variable, which must not be under way already. -/
  | definition (name : String)
  /-- The rules of a mixin, which must not nest too deep. -/
  | mixin (name : String)

/-- What has to be undone on leaving. -/
inductive Exit
  | parens
  | call (mathOn inCalc : Bool)
  | math (mode : MathMode)
  | frame
  | selectors
  | definition
  | mixin

/-- A computation that changes a session.  The changes remain if it fails. -/
abbrev Action (α : Type) := ExceptT Error (StateM Session) α

namespace Session

/-- The session of a whole stylesheet. -/
def ofOptions (o : Options) : Session := { math := o.math, style := o.style }

/-- What a session amounts to for the node that is being evaluated. -/
def context (s : Session) : Context where
  math := s.math
  style := s.style
  mathOn := s.mathOn
  inCalc := s.inCalc
  parens := s.parens
  mixinDepth := s.mixinDepth
  frames := s.frames
  pending := s.pending
  selectors := s.selectors.headD []

/-- Carries out a computation from a session on: its result, and the session behind it. -/
def run {α : Type} (s : Session) (x : Action α) : Except Error α × Session := StateT.run x.run s

/-- Enters something and notes how to leave it. -/
def enter : Entry → Action Exit
  | .parens => do
    modify fun s => { s with parens := s.parens + 1 }
    return .parens
  | .call isCalc => do
    let s ← get
    set { s with mathOn := !isCalc, inCalc := s.inCalc || isCalc }
    return .call s.mathOn s.inCalc
  | .math mode => do
    let s ← get
    set { s with math := mode }
    return .math s.math
  | .frame frame => do
    modify fun s => { s with frames := frame :: s.frames }
    return .frame
  | .selectors selectors => do
    modify fun s => { s with selectors := selectors :: s.selectors }
    return .selectors
  | .definition name => do
    if (← get).pending.contains name then throw (.recursiveVariable name)
    modify fun s => { s with pending := name :: s.pending }
    return .definition
  | .mixin name => do
    if (← get).mixinDepth ≥ mixinDepthLimit then throw (.mixinTooDeep name)
    modify fun s => { s with mixinDepth := s.mixinDepth + 1 }
    return .mixin

/-- Undoes what was changed on entering. -/
def leave (s : Session) : Exit → Session
  | .parens => { s with parens := s.parens - 1 }
  | .call mathOn inCalc => { s with mathOn, inCalc }
  | .math mode => { s with math := mode }
  | .frame => { s with frames := s.frames.tail }
  | .selectors => { s with selectors := s.selectors.tail }
  | .definition => { s with pending := s.pending.tail }
  | .mixin => { s with mixinDepth := s.mixinDepth - 1 }

end Session

namespace InPlace

open Session Evaluation

/-- Carries something out inside of what is entered for it, which is left in any case. -/
def inside {α : Type} (entry : Entry) (body : Action α) : Action α := do
  let exit ← enter entry
  try body
  finally modify (leave · exit)

/-- The context at present. -/
def present : Action Context := return (← get).context

/-- How definitions are evaluated that a name was found to stand for. -/
structure Deeper where
  /-- Evaluates the definition of a variable. -/
  node : Node → Action Node
  /-- Evaluates the rules of a mixin, in a scope of their own. -/
  rules : List Node → Action (List Node)

/-! ## Variables and texts with holes -/

/-- The value of a variable. -/
def reference (d : Deeper) (name : String) (offset : Nat) : Action Node := do
  match (← present).definition? name with
  | none => throw (.undefinedVariable name offset)
  | some definition => inside (.definition name) (d.node definition)

/-- The text of a part, a hole being filled with the value of its variable. -/
def fillPart (d : Deeper) : Text.Part → Action String
  | .plain char => return char.toString
  | .hole name offset => do
    let value ← reference d ("@" ++ String.ofList name) offset
    bareText (← present).style value

/-- A text with its holes filled. -/
def fill (d : Deeper) (text : String) : Action String := do
  return String.join (← (Text.parts text).mapM (fillPart d))

/-- The elements of a selector with their holes filled. -/
def fillElements (d : Deeper) (es : List Element) : Action (List Element) :=
  es.mapM fun e => do return { e with text := ← fill d e.text }

mutual
/-- A selector with the holes filled, those in the selectors that it extends as well. -/
def fillSelector (d : Deeper) : Selector → Action Selector
  | .mk elements extending => do
    let elements ← fillElements d elements
    return .mk elements (← fillTargets d extending)
/-- Selectors that are extended, with the holes filled. -/
def fillTargets (d : Deeper) : List (Selector × Bool) → Action (List (Selector × Bool))
  | [] => return []
  | (target, all) :: rest => do
    let target ← fillSelector d target
    return (target, all) :: (← fillTargets d rest)
end

/-! ## What is around -/

/-- Inside of a row: parentheses count, but for those that are an operand under the strictest math
mode. -/
def inRow {α : Type} (parens operand : Bool) (body : Action α) : Action α := do
  if parens && ((← present).math != .strictLegacy || !operand) then inside .parens body else body

/-- In the value of a property.  In `font` a slash is no division outside of parentheses. -/
def inProperty {α : Type} (name : String) (body : Action α) : Action α := do
  if name == "font" && (← present).math == .always then inside (.math .parensDivision) body
  else body

/-- In the rules of an at-rule: only those of some stand under the selectors around. -/
def inAtRule {α : Type} (name : String) (body : Action α) : Action α :=
  if keepsSelectors name then body else inside (.selectors []) body

/-- A rule set, given how its rules are evaluated. -/
def ruleset (d : Deeper) (selectors : List Selector) (root : Bool) (rules : Action (List Node)) :
    Action Ruleset := do
  if root then return .ofRules (← rules)
  else
    let own ← selectors.mapM (fillSelector d)
    let joined := Selector.joinAll (← present).selectors own
    return ⟨joined, ← inside (.selectors joined) rules, false⟩

/-- The rules that take the place of a call, for arguments with the given values. -/
def expand (d : Deeper) (m : Mixin) (name : String) (args values : List Node) (important : Bool)
    (offset : Nat) : Action (List Node) := do
  let frame ← argumentFrame m name offset ((args.map argumentName?).zip values)
  let rules ← inside (.mixin name) (inside (.frame frame) (d.rules m.rules))
  return if important then makeAllImportant rules else rules

/-! ## Nodes -/

mutual
/-- Evaluates a node. -/
def eval (d : Deeper) : Node → Action Yield
  | .dimension number => return .one (.dimension number)
  | .expression [] parens operand tight => do
    let c ← present
    let result ← inRow parens operand (return .expression [] parens operand tight)
    return .one (keepParens c parens operand false result)
  | .expression [item] parens operand _ => do
    -- whether operators are carried out counts outside of the row, what doubles parentheses inside
    let c ← present
    let (double, result) ← inRow parens operand do
      let double := doublesParens (← present) item
      return (double, ← eval d item)
    return .one (keepParens c parens operand double result.toNode)
  | .expression items parens operand tight => do
    let c ← present
    let results ← inRow parens operand (evalSplice d items)
    return .one (keepParens c parens operand false (.expression results parens operand tight))
  | .list [item] => do return .one (← eval d item).toNode
  | .list items => do return .one (.list (← evalEach d items))
  | .paren inner => do return .one (.paren (← eval d inner).toNode)
  | .comment text isLine => return .one (.comment text isLine)
  | .keyword text => return .one (.keyword text)
  | .quoted quote text escaped => do return .one (.quoted quote (← fill d text) escaped)
  | .url text => do return .one (.url (← fill d text))
  | .reference name offset => do return .one (← reference d name offset)
  | .operation op left right spaced offset => do
    let left ← eval d left
    let right ← eval d right
    return .one (← operation (← present) op left.toNode right.toNode spaced offset)
  | .negative inner => do
    let value ← eval d inner
    return .one (← negative (← present) value.toNode)
  | .call name args offset => do
    let values ← inside (.call (isCalc name)) (evalEach d args)
    let result ← builtin (← present).style name values
    return .one (result.getD (.call name values offset))
  | .declaration _ _ _ true _ => return .nothing
  | .declaration name value important false offset => do
    let name ← fill d name
    let value ← ExceptT.adapt (Error.locate offset) (inProperty name (eval d value))
    return .one (.declaration name value.toNode important false offset)
  | .selector s => return .one (.selector s)
  | .ruleset selectors rules root => do
    let result ← ruleset d selectors root (inside (.frame (.ofRules rules)) (evalSplice d rules))
    return .one result.toNode
  | .atRule name header none => do
    return .one (.atRule name (← evalHeader d header) none)
  | .atRule name header (some rules) => do
    let header ← evalHeader d header
    let c ← present
    let results ← inAtRule name (inside (.frame (.ofRules rules)) (evalSplice d rules))
    return .one (.atRule name header (some (wrapAtRule c name results)))
  | .media features rules => do
    let features ← eval d features
    let c ← present
    let results ← inside (.frame (.ofRules rules)) (evalSplice d rules)
    return .one (.media features.toNode (wrap c.selectors results))
  | .importRule path features options => do
    let path ← eval d path
    return .one (.importRule path.toNode (← evalHeader d features) options)
  | .mixin .. => return .nothing
  | .mixinCall name args important offset => do
    match (← present).mixin? name with
    | none => throw (.undefinedMixin name offset)
    | some m =>
      let values ← evalEach d args
      return .many (← expand d m name args values important offset)
  | .argument _ value => eval d value
/-- Evaluates every node of a row to one node. -/
def evalEach (d : Deeper) : List Node → Action (List Node)
  | [] => return []
  | node :: nodes => do
    let result ← eval d node
    return result.toNode :: (← evalEach d nodes)
/-- Evaluates the nodes of a row and puts all results in their place. -/
def evalSplice (d : Deeper) : List Node → Action (List Node)
  | [] => return []
  | node :: nodes => do
    let result ← eval d node
    return result.toList ++ (← evalSplice d nodes)
/-- Evaluates a node that may be missing. -/
def evalHeader (d : Deeper) : Option Node → Action (Option Node)
  | none => return none
  | some node => do return some (← eval d node).toNode
end

/-- Evaluates definitions with at most `n` definitions inside of each other. -/
def Deeper.within : Nat → Deeper
  | 0 => ⟨fun _ => throw .unfinished, fun _ => throw .unfinished⟩
  | n + 1 =>
    let deeper := within n
    { node := fun node => do return (← eval deeper node).toNode
      rules := fun rules => inside (.frame (.ofRules rules)) (evalSplice deeper rules) }

end InPlace

/-- Evaluates a node in a session. -/
def Session.eval (node : Node) : Action Yield := do
  InPlace.eval (.within ((← InPlace.present).bound [node])) node

end LessCss
