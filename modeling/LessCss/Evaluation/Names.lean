import LessCss.Evaluation.Context

/-!
# The names that can be defined

Evaluation looks up definitions by name and evaluates what it finds, so that it does not go along
the structure of nodes alone.  It ends nevertheless, because no variable is evaluated inside of
itself and calls of mixins nest at most so deep.  What bounds it is the number of names that any
node in reach defines, which this module lists.
-/

namespace LessCss

namespace Node

mutual
/-- The names of variables and parameters that are defined somewhere in a node. -/
def definedNames : Node → List String
  | expression items _ _ _ => definedNamesAll items
  | list items => definedNamesAll items
  | paren inner => definedNames inner
  | operation _ left right _ _ => definedNames left ++ definedNames right
  | negative inner => definedNames inner
  | call _ args _ => definedNamesAll args
  | declaration name value _ isVariable _ =>
    (if isVariable then [name] else []) ++ definedNames value
  | ruleset _ rules _ => definedNamesAll rules
  | atRule _ header rules => definedNamesHeader header ++ definedNamesBlock rules
  | media features rules => definedNames features ++ definedNamesAll rules
  | importRule path features _ => definedNames path ++ definedNamesHeader features
  | mixin _ params _ rules => definedNamesParams params ++ definedNamesAll rules
  | mixinCall _ args _ _ => definedNamesAll args
  | argument _ value => definedNames value
  | dimension _ | comment .. | keyword _ | quoted .. | url _ | reference .. | selector _ => []
/-- The names defined in a row of nodes. -/
def definedNamesAll : List Node → List String
  | [] => []
  | node :: nodes => definedNames node ++ definedNamesAll nodes
/-- The names defined in a node that may be missing. -/
def definedNamesHeader : Option Node → List String
  | none => []
  | some node => definedNames node
/-- The names defined in a block that may be missing. -/
def definedNamesBlock : Option (List Node) → List String
  | none => []
  | some nodes => definedNamesAll nodes
/-- The names of parameters, and those defined in their defaults. -/
def definedNamesParams : List (Option String × Option Node) → List String
  | [] => []
  | (name, default) :: params =>
    name.toList ++ definedNamesHeader default ++ definedNamesParams params
end

end Node

namespace Frame

/-- The names defined in a scope or anywhere in its definitions. -/
def definedNames (f : Frame) : List String :=
  f.values.flatMap (fun v => v.1 :: v.2.definedNames)
    ++ f.mixins.flatMap fun m => m.2.toNode.definedNames

end Frame

namespace Context

/-- A bound on how often evaluation in this context passes on to a definition inside of a
definition: once for each name in reach, the one that holds all arguments of a call included, and
once for each call of a mixin that may still be nested. -/
def bound (c : Context) (nodes : List Node) : Nat :=
  (c.frames.flatMap Frame.definedNames).length + (Node.definedNamesAll nodes).length
    + (mixinDepthLimit - c.mixinDepth) + 2

end Context

end LessCss
