import Mathlib.Control.Lawful
import LessCss.Visitor

/-!
# Results put in place

What a visit leaves in the place of a node may be a row of results, each of which may be a row
again.  The visitor takes them apart with a stack of rows.  `Substitute.leaves` says what has to
come out, by recursion on the result: one node for a node, nothing for nothing, and for a row what
comes out of its parts, one part after the other.

The stack loses and moves nothing (`Substitute.unstack_eq`): at any time, what it still has to give
is the leaves of its rows, the one on top first.  So the visit of a row of nodes is the visits of
its nodes, one after the other, and then the leaves of their results
(`Visitor.visitEach_eq_flatMap`).
-/

namespace LessCss

namespace Substitute

mutual
/-- The nodes of a result, from left to right. -/
def leaves : Substitute → List Node
  | node n => [n]
  | nodes parts => leavesAll parts
  | absent => []
/-- The nodes of several results, from left to right. -/
def leavesAll : List Substitute → List Node
  | [] => []
  | part :: parts => leaves part ++ leavesAll parts
end

/-- **Taking a stack apart gives its leaves**, from the row on top down. -/
theorem unstack_eq (done : List Node) (rows : List (List Substitute)) :
    unstack done rows = done ++ rows.flatMap leavesAll := by
  fun_induction unstack done rows with
  | case1 done => rw [List.flatMap_nil, List.append_nil]
  | case2 done rows ih => rw [ih, List.flatMap_cons, leavesAll, List.nil_append]
  | case3 done n row rows ih =>
    simp only [ih, List.flatMap_cons, leavesAll, leaves, List.append_assoc]
  | case4 done row rows ih => simp only [ih, List.flatMap_cons, leavesAll, leaves, List.nil_append]
  | case5 done parts row rows ih =>
    simp only [ih, List.flatMap_cons, leavesAll, leaves, List.append_assoc]

/-- What comes of one result is its nodes, from left to right. -/
theorem unstack_single (done : List Node) (v : Substitute) :
    unstack done [[v]] = done ++ v.leaves := by
  simp [unstack_eq, leavesAll]

/-- The nodes that the stack gives for a result are its leaves. -/
@[simp] theorem toList_eq (v : Substitute) : v.toList = v.leaves := by
  rw [toList, unstack_single, List.nil_append]

end Substitute

namespace Visitor

variable {m : Type → Type} [Monad m] [LawfulMonad m]

/-- **The visit of a row puts the leaves of all results in a row**, in the order of the nodes. -/
theorem visitEach_eq_flatMap (visit : Node → m Substitute) (nodes : List Node) :
    visitEach visit nodes = do return (← nodes.mapM visit).flatMap Substitute.leaves := by
  -- what is done so far stays in front of what is to come
  have hloop : ∀ done : List Node,
      nodes.foldlM (fun done n => do return done ++ (← visit n).leaves) done =
      do return done ++ (← nodes.mapM visit).flatMap Substitute.leaves := by
    induction nodes with
    | nil => simp
    | cons n nodes ih =>
      intro done
      simp only [List.foldlM_cons, List.mapM_cons, bind_assoc, pure_bind, ih, List.flatMap_cons,
        List.append_assoc]
  simp only [visitEach, Substitute.unstack_single]
  exact hloop []

end Visitor

end LessCss
