import LessCss.Evaluation
import Mathlib.Logic.Relation

/-!
# Steps of evaluation

Evaluating a node means evaluating other nodes in the course of it: its parts, the definitions of
the variables that it asks for, and the rules of the mixin that it calls.  A *configuration* is a
node with the context in which it is evaluated, and `Enters` relates one to all those that its
evaluation passes on to. There are three sorts of steps.

* `Inside` goes to a part of the node, in the context that the node sets up for it.
* `Asks` goes to the definition of a variable: of the node itself, or of a hole in its text, its
  name or its selectors.
* `Expands` goes to the rules of a mixin, in the scope of the parameters.

The contexts hold evaluated things (the name of a property, joined selectors, arguments), so the
steps depend on how definitions are evaluated (`Deeper`).  `Inside` keeps what is under way and
makes the node smaller; the two others are the only ones that change what is under way.
-/

namespace LessCss

open Evaluation

/-! ## What a node asks for -/

/-- The variables that the holes of a text ask for. -/
def Text.asked (text : String) : List String :=
  (Text.parts text).filterMap fun
    | .plain _ => none
    | .hole name _ => some ("@" ++ String.ofList name)

namespace Selector

mutual
/-- The variables that the holes of a selector ask for, those of the selectors that it extends as
well. -/
def asked : Selector → List String
  | .mk elements extending =>
    elements.flatMap (fun e => Text.asked e.text) ++ askedTargets extending
/-- The variables that the holes of extended selectors ask for. -/
def askedTargets : List (Selector × Bool) → List String
  | [] => []
  | (target, _) :: rest => asked target ++ askedTargets rest
end

end Selector

/-- The variables that a node itself asks for, apart from its parts. -/
def Node.asked : Node → List String
  | .reference name _ => [name]
  | .quoted _ text _ => Text.asked text
  | .url text => Text.asked text
  | .declaration name _ _ false _ => Text.asked name
  | .ruleset selectors _ false => selectors.flatMap Selector.asked
  | _ => []

/-! ## Configurations -/

/-- A node with the context in which it is evaluated. -/
structure Config where
  context : Context
  node : Node

namespace Config

/-- From a node to one of its parts. -/
inductive Inside (d : Deeper) : Config → Config → Prop
  | item {c items parens operand tight item} (h : item ∈ items) :
      Inside d ⟨c, .expression items parens operand tight⟩ ⟨insideRow c parens operand, item⟩
  | listItem {c items item} (h : item ∈ items) : Inside d ⟨c, .list items⟩ ⟨c, item⟩
  | paren {c inner} : Inside d ⟨c, .paren inner⟩ ⟨c, inner⟩
  | left {c op left right spaced offset} :
      Inside d ⟨c, .operation op left right spaced offset⟩ ⟨c, left⟩
  | right {c op left right spaced offset} :
      Inside d ⟨c, .operation op left right spaced offset⟩ ⟨c, right⟩
  | negative {c inner} : Inside d ⟨c, .negative inner⟩ ⟨c, inner⟩
  | callArgument {c name args offset arg} (h : arg ∈ args) :
      Inside d ⟨c, .call name args offset⟩ ⟨c.inCall (isCalc name), arg⟩
  | value {c name value important offset filled} (h : fill d c name = .ok filled) :
      Inside d ⟨c, .declaration name value important false offset⟩ ⟨forProperty c filled, value⟩
  | sheetRule {c selectors rules rule} (h : rule ∈ rules) :
      Inside d ⟨c, .ruleset selectors rules true⟩ ⟨c.inFrame (.ofRules rules), rule⟩
  | rulesetRule {c selectors rules own rule} (hs : selectors.mapM (fillSelector d c) = .ok own)
      (h : rule ∈ rules) :
      Inside d ⟨c, .ruleset selectors rules false⟩
        ⟨(c.underSelectors (Selector.joinAll c.selectors own)).inFrame (.ofRules rules), rule⟩
  | header {c name header rules} : Inside d ⟨c, .atRule name (some header) rules⟩ ⟨c, header⟩
  | atRuleRule {c name header rules rule} (h : rule ∈ rules) :
      Inside d ⟨c, .atRule name header (some rules)⟩
        ⟨(insideAtRule c name).inFrame (.ofRules rules), rule⟩
  | features {c features rules} : Inside d ⟨c, .media features rules⟩ ⟨c, features⟩
  | mediaRule {c features rules rule} (h : rule ∈ rules) :
      Inside d ⟨c, .media features rules⟩ ⟨c.inFrame (.ofRules rules), rule⟩
  | path {c path features options} : Inside d ⟨c, .importRule path features options⟩ ⟨c, path⟩
  | importFeatures {c path features options} :
      Inside d ⟨c, .importRule path (some features) options⟩ ⟨c, features⟩
  | argument {c name args important offset arg} (h : arg ∈ args) :
      Inside d ⟨c, .mixinCall name args important offset⟩ ⟨c, arg⟩
  | argumentValue {c name value} : Inside d ⟨c, .argument name value⟩ ⟨c, value⟩

/-- From a node to the definition of a variable that it asks for and that is not under way. -/
inductive Asks : Config → Config → Prop
  | definition {c node name definition inside} (asked : name ∈ node.asked)
      (found : c.definition? name = some definition) (enter : c.inVariable name = .ok inside) :
      Asks ⟨c, node⟩ ⟨inside, definition⟩

/-- From the call of a mixin to its rules, in the scope of its parameters. -/
inductive Expands (d : Deeper) : Config → Context → List Node → Prop
  | rules {c name args important offset m values frame inside} (found : c.mixin? name = some m)
      (evaluated : evalEach d c args = .ok values)
      (bound : argumentFrame m name offset ((args.map argumentName?).zip values) = .ok frame)
      (enter : c.inMixin name = .ok inside) :
      Expands d ⟨c, .mixinCall name args important offset⟩ (inside.inFrame frame) m.rules

/-- From a node to a node that is evaluated in the course of its own evaluation. -/
inductive Enters (d : Deeper) : Config → Config → Prop
  | inside {s t} (h : Inside d s t) : Enters d s t
  | definition {s t} (h : Asks s t) : Enters d s t
  | rule {s c rules rule} (h : Expands d s c rules) (member : rule ∈ rules) :
      Enters d s ⟨c.inFrame (.ofRules rules), rule⟩

/-- From a node to one that a chain of nested evaluations leads to. -/
def Reaches (d : Deeper) : Config → Config → Prop := Relation.ReflTransGen (Enters d)

/-! ## Steps to a part -/

variable {d : Deeper} {s t : Config}

/-- What is inside of a node is smaller. -/
theorem Inside.sizeOf_lt (h : Inside d s t) : sizeOf t.node < sizeOf s.node := by
  cases h with
  | item h | listItem h | callArgument h | sheetRule h | rulesetRule _ h | atRuleRule h
  | mediaRule h
  | argument h =>
    have := List.sizeOf_lt_of_mem h
    simp
    omega
  | paren | left | right | negative | value | header | features | path | importFeatures
  | argumentValue =>
    simp
    try omega

end Config

end LessCss
