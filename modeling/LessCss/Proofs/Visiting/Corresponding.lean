import LessCss.Proofs.Visiting.Tour

/-!
# Visits side by side

A visit with handlers that are remembered or written down does what the plain visit does, and in
each case this is shown by comparing two computations.  How results are put into the places of the
nodes inside plays no part in it: whatever relation of computations allows to do nothing and to do
one thing after another, it carries over from the visits of single nodes to the visit of what is
inside of a node (`Correspondence.Each.visitInside`), and of what is inside of all nodes of a result
(`Correspondence.Each.descend`).

The relation may be about the nodes that are visited, and it may compare one computation with
several.
-/

namespace LessCss

namespace Visitor

/-- A relation of a computation that visits some nodes to the computations of a family, which holds
if all of them do nothing, and goes on to hold when they do one thing after another. -/
structure Correspondence (ι τ σ : Type) where
  Holds : {α : Type} → List Node → StateM τ α → (ι → StateM σ α) → Prop
  pure {α : Type} (a : α) : Holds [] (Pure.pure a) fun _ => Pure.pure a
  bind {α β : Type} {nodes nodes' : List Node} {p : StateM τ α} {q : ι → StateM σ α}
    {f : α → StateM τ β}
    {g : ι → α → StateM σ β} (h : Holds nodes p q) (hf : ∀ a, Holds nodes' (f a) fun i => g i a) :
    Holds (nodes ++ nodes') (p >>= f) fun i => q i >>= g i

namespace Correspondence

variable {ι τ σ α β : Type} {r : Correspondence ι τ σ}
variable {visit : Node → StateM τ Substitute} {visit' : ι → Node → StateM σ Substitute}

/-- What is done with a value found makes no difference if it is the same on both sides. -/
theorem andReturn {nodes : List Node} {p : StateM τ α} {q : ι → StateM σ α}
    (h : r.Holds nodes p q) (f : α → β) :
    r.Holds nodes (do return f (← p)) fun i => do return f (← q i) := by
  have hbind : r.Holds (nodes ++ []) (do return f (← p)) fun i => do return f (← q i) :=
    r.bind h fun a => r.pure (f a)
  rwa [List.append_nil] at hbind

/-- The visits of single nodes are related. -/
def Each (r : Correspondence ι τ σ) (visit : Node → StateM τ Substitute)
    (visit' : ι → Node → StateM σ Substitute) : Prop :=
  ∀ n, r.Holds [n] (visit n) fun i => visit' i n

namespace Each

/-- Visiting the nodes of a row one after the other is related on both sides. -/
theorem mapM (h : r.Each visit visit') (nodes : List Node) :
    r.Holds nodes (nodes.mapM visit) fun i => nodes.mapM (visit' i) := by
  induction nodes with
  | nil => exact r.pure []
  | cons n nodes ih =>
    simp only [List.mapM_cons]
    exact r.bind (h n) fun result => andReturn ih (result :: ·)

/-- **Visiting what is inside of a node is visiting the nodes there**, from left to right. -/
theorem visitInside (h : r.Each visit visit') (n : Node) :
    r.Holds n.inside (Visitor.visitInside visit n) fun i => Visitor.visitInside (visit' i) n := by
  simp only [visitInside_eq_refill]
  exact andReturn (andReturn (mapM h n.inside) _) n.refill

mutual
/-- **Descending into a result is visiting what is inside of its leaves.** -/
theorem descend (h : r.Each visit visit') (result : Substitute) :
    r.Holds (result.leaves.flatMap Node.inside) (Visitor.descend visit result) fun i =>
      Visitor.descend (visit' i) result := by
  cases result with
  | node n =>
    rw [Substitute.leaves, List.flatMap_cons, List.flatMap_nil, List.append_nil]
    exact andReturn (visitInside h n) _
  | nodes parts => exact andReturn (descendAll h parts) _
  | absent => exact r.pure _
/-- So is visiting what is inside of several results. -/
theorem descendAll (h : r.Each visit visit') (parts : List Substitute) :
    r.Holds ((Substitute.leavesAll parts).flatMap Node.inside)
      (Visitor.descendAll visit parts) fun i =>
      Visitor.descendAll (visit' i) parts := by
  cases parts with
  | nil => exact r.pure _
  | cons part parts =>
    rw [Substitute.leavesAll, List.flatMap_append]
    exact r.bind (descend h part) fun _ => andReturn (descendAll h parts) _
end

end Each

end Correspondence

end Visitor

end LessCss
