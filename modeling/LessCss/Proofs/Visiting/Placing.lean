import LessCss.Proofs.Visiting.Splicing

/-!
# Results inside of a node

The nodes inside of a node are visited from left to right, and what a visit leaves of each of them
gets into the place where it stood.  `Node.refill` says how: what comes for the nodes of a row
stands side by side in the row, a place that holds just one node gets one for all that comes, and
among the selectors of a rule set only selectors count.  It is told what comes for each node inside,
and needs to know nothing else of the visit.

So a visit inside of a node is a visit of the nodes there, one after the other, and then a refill
(`Visitor.visitInside_eq_refill`), and the visit inside of a result is that of its nodes
(`Visitor.leaves_descend`).  Both hold of any visit, whatever it does to single nodes.
-/

namespace LessCss

namespace Node

/-- The nodes that are visited inside of a node, from left to right. -/
def inside : Node → List Node
  | expression items _ _ _ => items
  | list items => items
  | paren inner => [inner]
  | operation _ left right _ _ => [left, right]
  | negative inner => [inner]
  | call _ args _ => args
  | declaration _ value _ _ _ => [value]
  | ruleset selectors rules _ => selectors.map selector ++ rules
  | atRule _ header rules => header.toList ++ rules.getD []
  | media features rules => features :: rules
  | importRule path features _ => path :: features.toList
  | mixin _ _ _ rules => rules
  | mixinCall _ args _ _ => args
  | argument _ value => [value]
  | dimension _ | comment .. | keyword _ | quoted .. | url _ | reference .. | selector _ => []

/-- A node with others in the place of those inside of it, for each of which it is given what comes
in its place. -/
def refill : Node → List (List Node) → Node
  | expression _ parens operand tight, parts => expression parts.flatten parens operand tight
  | list _, parts => list parts.flatten
  | paren _, parts => paren (ofNodes parts.flatten)
  | operation op _ _ spaced offset, parts =>
    operation op (ofNodes (parts.take 1).flatten) (ofNodes (parts.drop 1).flatten) spaced offset
  | negative _, parts => negative (ofNodes parts.flatten)
  | call name _ offset, parts => call name parts.flatten offset
  | declaration name _ important isVariable offset, parts =>
    declaration name (ofNodes parts.flatten) important isVariable offset
  | ruleset selectors _ root, parts =>
    ruleset ((parts.take selectors.length).flatten.filterMap Visitor.selector?)
      (parts.drop selectors.length).flatten root
  | atRule name header rules, parts =>
    atRule name (header.map fun _ => ofNodes (parts.take header.toList.length).flatten)
      (rules.map fun _ => (parts.drop header.toList.length).flatten)
  | media _ _, parts => media (ofNodes (parts.take 1).flatten) (parts.drop 1).flatten
  | importRule _ features options, parts =>
    importRule (ofNodes (parts.take 1).flatten)
      (features.map fun _ => ofNodes (parts.drop 1).flatten) options
  | mixin name params guard _, parts => mixin name params guard parts.flatten
  | mixinCall name _ important offset, parts => mixinCall name parts.flatten important offset
  | argument name _, parts => argument name (ofNodes parts.flatten)
  | node, _ => node

/-- A node stays as it is if each of those inside of it comes back. -/
theorem refill_self (n : Node) : n.refill (n.inside.map fun x => [x]) = n := by
  have hrow {α : Type} (xs : List α) : (xs.map fun x => [x]).flatten = xs := by
    rw [← List.flatMap_def, List.flatMap_singleton']
  cases n with
  | ruleset selectors rules root =>
    rw [inside, List.map_append, List.map_map, refill, List.take_left' (List.length_map _),
      List.drop_left' (List.length_map _)]
    simp [List.filterMap_flatten, Visitor.selector?, Function.comp_def, hrow]
  | atRule name header rules =>
    cases header <;> cases rules <;> simp [inside, refill, ofNodes, hrow]
  | importRule path features options => cases features <;> simp [inside, refill, ofNodes]
  | _ => simp [inside, refill, ofNodes, hrow]

end Node

namespace Substitute

/-- A place that holds just one node gets the only leaf, or a row of all of them. -/
theorem toNode_eq (v : Substitute) : v.toNode = .ofNodes v.leaves := by
  cases v with
  | node n => rfl
  | nodes | absent => exact congrArg Node.ofNodes (toList_eq _)

end Substitute

namespace Visitor

variable {m : Type → Type} [Monad m] [LawfulMonad m]

/-- What is done with the results of a row may count on there being one for each node. -/
theorem mapM_bind_congr {α β γ : Type} {f : α → m β} {xs : List α} {g g' : List β → m γ}
    (h : ∀ ys, ys.length = xs.length → g ys = g' ys) : xs.mapM f >>= g = xs.mapM f >>= g' := by
  induction xs generalizing g g' with
  | nil => simp only [List.mapM_nil, pure_bind, h [] rfl]
  | cons x xs ih =>
    simp only [List.mapM_cons, bind_assoc, pure_bind]
    refine bind_congr fun y => ih fun ys hys => h (y :: ys) ?_
    rw [List.length_cons, hys, List.length_cons]

variable {visit : Node → m Substitute}

/-- What comes for each node of a row that is visited. -/
def visitParts (visit : Node → m Substitute) (nodes : List Node) : m (List (List Node)) := do
  return (← nodes.mapM visit).map Substitute.leaves

theorem visitParts_cons (n : Node) (nodes : List Node) :
    visitParts visit (n :: nodes) = do
      return (← visit n).leaves :: (← visitParts visit nodes) := by
  simp [visitParts]

/-- Visiting a row gives what comes for its nodes, one after the other. -/
theorem visitEach_eq_parts (nodes : List Node) :
    visitEach visit nodes = do return (← visitParts visit nodes).flatten := by
  simp only [visitEach_eq_flatMap, visitParts, bind_assoc, pure_bind, List.flatMap_def]

theorem visitOne_eq_parts (n : Node) :
    visitOne visit n = do return .ofNodes (← visitParts visit [n]).flatten := by
  simp [visitOne, visitParts, Substitute.toNode_eq]

/-- A header is visited as a row of one node or none. -/
theorem visitHeader_eq_parts (header : Option Node) :
    visitHeader visit header = visitParts visit header.toList >>= fun ps =>
      pure (header.map fun _ => .ofNodes ps.flatten) := by
  cases header with
  | none => simp [visitHeader, visitParts]
  | some n => simp [visitHeader, visitOne_eq_parts]

/-- A block is visited as a row, if there is one. -/
theorem visitBlock_eq_parts (rules : Option (List Node)) :
    visitBlock visit rules = visitParts visit (rules.getD []) >>= fun ps =>
      pure (rules.map fun _ => ps.flatten) := by
  cases rules with
  | none => simp [visitBlock, visitParts]
  | some nodes => simp [visitBlock, visitEach_eq_parts]

/-- The parts of a row are told from those of the row behind it by their number. -/
theorem visitParts_append_bind {γ : Type} (nodes nodes' : List Node)
    (g : List (List Node) → List (List Node) → m γ) :
    (visitParts visit (nodes ++ nodes') >>= fun all =>
        g (all.take nodes.length) (all.drop nodes.length)) =
      visitParts visit nodes >>= fun ps => visitParts visit nodes' >>= fun qs => g ps qs := by
  simp only [visitParts, List.mapM_append, bind_assoc, pure_bind, List.map_append]
  refine mapM_bind_congr fun ys hys => bind_congr fun zs => ?_
  have hlength : (ys.map Substitute.leaves).length = nodes.length := by rw [List.length_map, hys]
  rw [← hlength, List.take_left, List.drop_left]

/-- **What a visit leaves of the nodes inside gets into their places.** -/
theorem visitInside_eq_refill (n : Node) :
    visitInside visit n = do return n.refill (← visitParts visit n.inside) := by
  have hnone : visitParts visit [] = (pure [] : m (List (List Node))) := by simp [visitParts]
  cases n with
  | expression | list | call | mixin | mixinCall =>
    simp only [visitInside, visitEach_eq_parts, bind_assoc, pure_bind]
    rfl
  | paren | negative | declaration | argument =>
    simp only [visitInside, visitOne_eq_parts, bind_assoc, pure_bind]
    rfl
  | operation op left right spaced offset =>
    simp only [visitInside, visitOne_eq_parts, bind_assoc, pure_bind]
    exact (visitParts_append_bind [left] [right] fun ps qs => pure
      (Node.operation op (.ofNodes ps.flatten) (.ofNodes qs.flatten) spaced offset)).symm
  | ruleset selectors rules root =>
    simp only [visitInside, visitSelectors, visitEach_eq_parts, bind_assoc, pure_bind]
    refine (visitParts_append_bind (selectors.map Node.selector) rules fun ps qs => pure
      (Node.ruleset (ps.flatten.filterMap selector?) qs.flatten root)).symm.trans ?_
    rw [List.length_map]
    rfl
  | media features rules =>
    simp only [visitInside, visitOne_eq_parts, visitEach_eq_parts, bind_assoc, pure_bind]
    exact (visitParts_append_bind [features] rules fun ps qs => pure
      (Node.media (.ofNodes ps.flatten) qs.flatten)).symm
  | atRule name header rules =>
    simp only [visitInside, visitHeader_eq_parts, visitBlock_eq_parts, bind_assoc, pure_bind]
    exact (visitParts_append_bind header.toList (rules.getD []) fun ps qs => pure
      (Node.atRule name (header.map fun _ => .ofNodes ps.flatten)
        (rules.map fun _ => qs.flatten))).symm
  | importRule path features options =>
    simp only [visitInside, visitOne_eq_parts, visitHeader_eq_parts, bind_assoc, pure_bind]
    exact (visitParts_append_bind [path] features.toList fun ps qs => pure
      (Node.importRule (.ofNodes ps.flatten) (features.map fun _ => .ofNodes qs.flatten)
        options)).symm
  | dimension | comment | keyword | quoted | url | reference | selector =>
    simp [visitInside, Node.inside, Node.refill, hnone]

mutual
/-- **A visit inside of a result is that of all its nodes**, from left to right. -/
theorem leaves_descend (v : Substitute) :
    (do return (← descend visit v).leaves) = v.leaves.mapM (visitInside visit) := by
  cases v with
  | node n => simp [descend, Substitute.leaves]
  | nodes parts =>
    rw [descend, Substitute.leaves, ← leaves_descendAll parts]
    simp [Substitute.leaves]
  | absent => simp [descend, Substitute.leaves]
/-- The same for several results. -/
theorem leaves_descendAll (parts : List Substitute) :
    (do return Substitute.leavesAll (← descendAll visit parts)) =
      (Substitute.leavesAll parts).mapM (visitInside visit) := by
  cases parts with
  | nil => simp [descendAll, Substitute.leavesAll]
  | cons part parts =>
    rw [descendAll, Substitute.leavesAll, List.mapM_append, ← leaves_descend part,
      ← leaves_descendAll parts]
    simp [Substitute.leavesAll]
end

end Visitor

end LessCss
