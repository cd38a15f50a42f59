import LessCss.Visitor

/-!
# Visiting with remembered handlers

`Visitor.visit` asks the visitor for the handlers of a sort at every node.  Here it is asked when a
node of the sort is met for the first time, and what it says is remembered under the number of the
sort.  So there is something that a visit changes besides the state of the handlers, and it outlives
the visit: a *dispatcher* holds both.
-/

namespace LessCss

/-- The handlers for one sort of nodes. -/
structure Handling (m : Type → Type) where
  enter : Option (Node → m Entered)
  leave : Option (Node → m Node)

/-- The handlers of a visitor for one sort of nodes. -/
def Visitor.handling {m : Type → Type} (v : Visitor m) (sort : NodeSort) : Handling m :=
  ⟨v.enter sort, v.leave sort⟩

/-- The state of some handlers, and which of them have been looked up so far. -/
structure Dispatcher (σ : Type) where
  state : σ
  /-- At the number of a sort, its handlers, once a node of the sort has been met. -/
  known : List (Option (Handling (StateM σ)))

namespace Dispatcher

variable {σ α : Type}

/-- Nothing has been looked up yet. -/
def ofState (state : σ) : Dispatcher σ := ⟨state, List.replicate (NodeSort.handled.length + 1) none⟩

/-- Lets a handler work on its state. -/
def onState (x : StateM σ α) : StateM (Dispatcher σ) α := fun d =>
  let (a, state) := x d.state
  (a, { d with state })

/-- The handlers of the sort with a given number: those that are remembered, or else those of the
visitor, which are remembered from now on. -/
def lookUp (v : Visitor (StateM σ)) (number : Nat) (sort : NodeSort) :
    StateM (Dispatcher σ) (Handling (StateM σ)) := do
  let d ← get
  match d.known[number]? with
  | some (some h) => return h
  | _ =>
    let h := v.handling sort
    set { d with known := d.known.set number (some h) }
    return h

/-- The visitor with the same handlers for all sorts. -/
def uniform (replacing : Bool) (h : Handling (StateM σ)) : Visitor (StateM (Dispatcher σ)) where
  replacing
  enter _ := h.enter.map fun enter node => onState (enter node)
  leave _ := h.leave.map fun leave node => onState (leave node)

/-- Visits a node and the nodes inside of it, at most `limit` of them inside of each other. -/
def visitWithin (v : Visitor (StateM σ)) : Nat → Node → StateM (Dispatcher σ) Substitute
  | 0, node => return .node node
  | limit + 1, node =>
    match node.sort.number? with
    | none => do return .node (← Visitor.visitInside (visitWithin v limit) node)
    | some number => do
      let h ← lookUp v number node.sort
      (uniform v.replacing h).visitHandled (visitWithin v limit) node

/-- Visits a node and all nodes inside of it, as `Visitor.visit` does. -/
def visit (v : Visitor (StateM σ)) (growth : Nat) (node : Node) :
    StateM (Dispatcher σ) Substitute :=
  visitWithin v (node.depth + growth) node

end Dispatcher

end LessCss
