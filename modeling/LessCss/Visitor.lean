import LessCss.Node

/-!
# Visiting nodes

A visitor has handlers for the sorts of nodes it cares about, one for entering a node and one for
leaving it.  A handler may change the node, and the one for entering may keep the visitor from going
deeper or, for a replacing visitor, put something else in the place of the node: several nodes, or
nothing.

The nodes inside of a node are visited from left to right: selectors before rules, and what stands
in front of a block before its rules.  Defaults of parameters and selectors that are extended do not
count as nodes inside.  An argument of a call has no handlers; what it holds is visited.
-/

namespace LessCss

/-! ## Results -/

/-- What a visit leaves in the place of a node. -/
inductive Substitute
  | node (node : Node)
  | nodes (parts : List Substitute)
  | absent
  deriving Repr, Inhabited

namespace Substitute

/-- Takes the nodes off a stack of rows of results, first those of the row on top, and puts them
behind `done`. -/
def unstack (done : List Node) : List (List Substitute) → List Node
  | [] => done
  | [] :: rows => unstack done rows
  | (.node n :: row) :: rows => unstack (done ++ [n]) (row :: rows)
  | (.absent :: row) :: rows => unstack done (row :: rows)
  | (.nodes parts :: row) :: rows => unstack done (parts :: row :: rows)
termination_by rows => sizeOf rows

/-- All nodes of a result, from left to right. -/
def toList (v : Substitute) : List Node := unstack [] [[v]]

/-- A single node, for a place that holds just one. -/
def toNode : Substitute → Node
  | node n => n
  | v => .ofNodes v.toList

end Substitute

/-! ## Depth -/

namespace Node

mutual
/-- How many nodes stand inside of each other, the node itself included. -/
def depth : Node → Nat
  | expression items _ _ _ => depthAll items + 1
  | list items => depthAll items + 1
  | paren inner => depth inner + 1
  | operation _ left right _ _ => max (depth left) (depth right) + 1
  | negative inner => depth inner + 1
  | call _ args _ => depthAll args + 1
  | declaration _ value _ _ _ => depth value + 1
  | ruleset _ rules _ => max 1 (depthAll rules) + 1
  | atRule _ header rules => max (depthHeader header) (depthBlock rules) + 1
  | media features rules => max (depth features) (depthAll rules) + 1
  | importRule path features _ => max (depth path) (depthHeader features) + 1
  | mixin _ _ _ rules => depthAll rules + 1
  | mixinCall _ args _ _ => depthAll args + 1
  | argument _ value => depth value + 1
  | dimension _ | comment .. | keyword _ | quoted .. | url _ | reference .. | selector _ => 1
/-- How many nodes of a row stand inside of each other. -/
def depthAll : List Node → Nat
  | [] => 0
  | node :: nodes => max (depth node) (depthAll nodes)
/-- The depth of a node that may be missing. -/
def depthHeader : Option Node → Nat
  | none => 0
  | some node => depth node
/-- The depth of a block that may be missing. -/
def depthBlock : Option (List Node) → Nat
  | none => 0
  | some nodes => depthAll nodes
end

end Node

namespace Substitute

/-- How many nodes of a result stand inside of each other. -/
def depth (v : Substitute) : Nat := Node.depthAll v.toList

end Substitute

/-! ## Visitors -/

/-- What came of entering a node. -/
structure Entered where
  /-- The node, perhaps changed. -/
  node : Node
  /-- Whether the nodes inside are to be visited. -/
  deeper : Bool := true
  /-- What is to stand in the place of the node, if the visitor replaces nodes. -/
  replacement : Option Substitute := none
  deriving Inhabited

/-- Handlers for the sorts of nodes. -/
structure Visitor (m : Type → Type) where
  replacing : Bool
  enter : NodeSort → Option (Node → m Entered)
  leave : NodeSort → Option (Node → m Node)

namespace NodeSort

/-- The sorts that have handlers. -/
def handled : List NodeSort := all.filter (· ≠ argument)

/-- The number of a sort that has handlers, counted from one. -/
def number? (s : NodeSort) : Option Nat := (handled.idxOf? s).map (· + 1)

end NodeSort

namespace Visitor

variable {m : Type → Type} [Monad m]

/-- Visits the nodes of a row and puts the results in their place. -/
def visitEach (visit : Node → m Substitute) (nodes : List Node) : m (List Node) :=
  nodes.foldlM (fun done node => do return Substitute.unstack done [[← visit node]]) []

/-- Visits the node in a place that holds just one. -/
def visitOne (visit : Node → m Substitute) (node : Node) : m Node := do return (← visit node).toNode

/-- Visits a node that may be missing. -/
def visitHeader (visit : Node → m Substitute) : Option Node → m (Option Node)
  | none => return none
  | some node => do return some (← visitOne visit node)

/-- Visits a block that may be missing. -/
def visitBlock (visit : Node → m Substitute) : Option (List Node) → m (Option (List Node))
  | none => return none
  | some nodes => do return some (← visitEach visit nodes)

/-- The selector that a node is. -/
def selector? : Node → Option Selector
  | .selector s => some s
  | _ => none

/-- Visits selectors; results that are no selectors are dropped. -/
def visitSelectors (visit : Node → m Substitute) (ss : List Selector) : m (List Selector) := do
  return (← visitEach visit (ss.map Node.selector)).filterMap selector?

/-- Visits the nodes inside of a node. -/
def visitInside (visit : Node → m Substitute) : Node → m Node
  | .expression items parens operand tight => do
    return .expression (← visitEach visit items) parens operand tight
  | .list items => do return .list (← visitEach visit items)
  | .paren inner => do return .paren (← visitOne visit inner)
  | .operation op left right spaced offset => do
    let left ← visitOne visit left
    return .operation op left (← visitOne visit right) spaced offset
  | .negative inner => do return .negative (← visitOne visit inner)
  | .call name args offset => do return .call name (← visitEach visit args) offset
  | .declaration name value important isVariable offset => do
    return .declaration name (← visitOne visit value) important isVariable offset
  | .ruleset selectors rules root => do
    let selectors ← visitSelectors visit selectors
    return .ruleset selectors (← visitEach visit rules) root
  | .atRule name header rules => do
    let header ← visitHeader visit header
    return .atRule name header (← visitBlock visit rules)
  | .media features rules => do
    let features ← visitOne visit features
    return .media features (← visitEach visit rules)
  | .importRule path features options => do
    let path ← visitOne visit path
    return .importRule path (← visitHeader visit features) options
  | .mixin name params guard rules => do return .mixin name params guard (← visitEach visit rules)
  | .mixinCall name args important offset => do
    return .mixinCall name (← visitEach visit args) important offset
  | .argument name value => do return .argument name (← visitOne visit value)
  | node => return node

mutual
/-- Visits the nodes inside of all nodes of a result. -/
def descend (visit : Node → m Substitute) : Substitute → m Substitute
  | .node n => do return .node (← visitInside visit n)
  | .nodes parts => do return .nodes (← descendAll visit parts)
  | .absent => return .absent
/-- Visits the nodes inside of all nodes of several results. -/
def descendAll (visit : Node → m Substitute) : List Substitute → m (List Substitute)
  | [] => return []
  | part :: parts => do
    let part ← descend visit part
    return part :: (← descendAll visit parts)
end

/-- Leaves a node.  Where several nodes or none have taken its place, the handler sees the node
itself, and what it makes of it is dropped. -/
def depart (leave : Node → m Node) (node : Node) : Substitute → m Substitute
  | .node n => do return .node (← leave n)
  | visited => do
    let _ ← leave node
    return visited

/-- Visits a node that has handlers, `visit` being used for the nodes inside. -/
def visitHandled (v : Visitor m) (visit : Node → m Substitute) (node : Node) : m Substitute := do
  let entered ←
    match v.enter node.sort with
    | some enter => enter node
    | none => pure ⟨node, true, none⟩
  -- what takes the place of the node is not entered itself, only what is inside of it
  let replacement := if v.replacing then entered.replacement else none
  let visited := replacement.getD (.node entered.node)
  let visited ← if entered.deeper then descend visit visited else pure visited
  match v.leave node.sort with
  | some leave => depart leave entered.node visited
  | none => return visited

/-- Visits a node and the nodes inside of it, at most `limit` of them inside of each other; deeper
ones are left as they are. -/
def visitWithin (v : Visitor m) : Nat → Node → m Substitute
  | 0, node => return .node node
  | limit + 1, node =>
    if node.sort = .argument then do return .node (← visitInside (visitWithin v limit) node)
    else visitHandled v (visitWithin v limit) node

/-- Visits a node and all nodes inside of it.  `growth` says by how much the depth may grow because
nodes are replaced; for a visitor that does not replace nodes it can be 0. -/
def visit (v : Visitor m) (growth : Nat) (node : Node) : m Substitute :=
  visitWithin v (node.depth + growth) node

/-- Visits the nodes of a row and puts the results in their place. -/
def visitAll (v : Visitor m) (growth : Nat) (nodes : List Node) : m (List Node) :=
  visitEach (v.visit growth) nodes

end Visitor

end LessCss
