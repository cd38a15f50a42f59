import LessCss.Proofs.Visiting.Placing

/-!
# The order of a visit

The handlers of a visitor are called once for every node on entering it and once on leaving it, and
what is inside of a node comes in between.  `Visitor.Tours` says so of a row of calls, without
looking at any state: it knows the nodes and, for each node that is entered, whether the handler
wanted to go deeper. `Visitor.Performs` says the opposite half: what the handlers do if they are
called in a given order, wherever that order comes from.  A visit in which no handler changes or
replaces a node performs a tour of the node and gives it back as it was
(`Visitor.visitWithin_tours`).

The visit puts results into the places of the nodes inside.  Where each of these comes back as it
was, putting it back changes nothing (`Node.refill_self`).  So if each visit inside gives its node
back, visiting what is inside of a node is nothing but visiting the nodes of `Node.inside` one after
the other, in any monad and for all sorts of nodes (`Visitor.visitInside_eq`).
-/

namespace LessCss

/-! ## The nodes inside of a node -/

namespace Node

theorem depth_le_depthAll {nodes : List Node} {n : Node} (h : n ∈ nodes) :
    n.depth ≤ depthAll nodes := by
  induction nodes with
  | nil => cases h
  | cons m nodes ih =>
    rw [depthAll]
    rcases List.mem_cons.mp h with rfl | h
    · exact Nat.le_max_left _ _
    · exact Nat.le_trans (ih h) (Nat.le_max_right _ _)

/-- What is inside of a node is less deep than the node. -/
theorem depth_lt_of_mem_inside {n x : Node} (h : x ∈ n.inside) : x.depth < n.depth := by
  have hheader {header : Option Node} (h : x ∈ header.toList) : x.depth ≤ depthHeader header := by
    obtain rfl := Option.mem_toList.mp h
    exact Nat.le_refl _
  have hblock {rules : Option (List Node)} (h : x ∈ rules.getD []) :
      x.depth ≤ depthBlock rules := by
    cases rules with
    | none => cases h
    | some rules => exact depth_le_depthAll h
  cases n with
  | expression | list | call | mixin | mixinCall => exact Nat.lt_succ_of_le (depth_le_depthAll h)
  | paren | negative | declaration | argument =>
    obtain rfl := List.mem_singleton.mp h
    exact Nat.lt_succ_self _
  | operation op left right =>
    simp only [inside, List.mem_cons, List.not_mem_nil, or_false] at h
    rcases h with rfl | rfl
    · exact Nat.lt_succ_of_le (Nat.le_max_left _ _)
    · exact Nat.lt_succ_of_le (Nat.le_max_right _ _)
  | ruleset selectors rules root =>
    rcases List.mem_append.mp h with h | h
    · obtain ⟨s, _, rfl⟩ := List.mem_map.mp h
      exact Nat.lt_succ_of_le (Nat.le_max_left _ _)
    · exact Nat.lt_succ_of_le (Nat.le_trans (depth_le_depthAll h) (Nat.le_max_right _ _))
  | atRule name header rules =>
    rcases List.mem_append.mp h with h | h
    · exact Nat.lt_succ_of_le (Nat.le_trans (hheader h) (Nat.le_max_left _ _))
    · exact Nat.lt_succ_of_le (Nat.le_trans (hblock h) (Nat.le_max_right _ _))
  | media features rules =>
    rcases List.mem_cons.mp h with rfl | h
    · exact Nat.lt_succ_of_le (Nat.le_max_left _ _)
    · exact Nat.lt_succ_of_le (Nat.le_trans (depth_le_depthAll h) (Nat.le_max_right _ _))
  | importRule path features =>
    rcases List.mem_cons.mp h with rfl | h
    · exact Nat.lt_succ_of_le (Nat.le_max_left _ _)
    · exact Nat.lt_succ_of_le (Nat.le_trans (hheader h) (Nat.le_max_right _ _))
  | dimension | comment | keyword | quoted | url | reference | selector => cases h

end Node

namespace Visitor

/-! ## Visits that give every node back -/

section Inside

variable {m : Type → Type} [Monad m] [LawfulMonad m] {visit : Node → m Substitute}
  {look : Node → m Unit}

/-- A visit that gives its node back. -/
def GivesBack (visit : Node → m Substitute) (look : Node → m Unit) (n : Node) : Prop :=
  visit n = do look n; return .node n

/-- **Nothing inside of a node moves** if each visit there gives its node back. -/
theorem visitInside_eq {n : Node} (h : ∀ x ∈ n.inside, GivesBack visit look x) :
    visitInside visit n = do n.inside.forM look; return n := by
  have hall {nodes : List Node} (hback : ∀ x ∈ nodes, GivesBack visit look x) :
      visitParts visit nodes = do nodes.forM look; return nodes.map fun x => [x] := by
    induction nodes with
    | nil => simp [visitParts]
    | cons x nodes ih =>
      obtain ⟨hx, hnodes⟩ := List.forall_mem_cons.mp hback
      rw [visitParts_cons, ih hnodes, hx]
      simp [Substitute.leaves]
  rw [visitInside_eq_refill, hall h]
  simp only [bind_assoc, pure_bind, Node.refill_self]

end Inside

/-! ## Calls of handlers -/

/-- A call of a handler: of the one for entering a node, which says whether to go deeper, or of the
one for leaving it. -/
inductive Call
  | enter (node : Node) (deeper : Bool)
  | leave (node : Node)

/-- The calls on a tour of a row of nodes: a node is entered before all that is inside of it, if
that is visited at all, and left behind it. -/
inductive Tours : List Node → List Call → Prop
  | nil : Tours [] []
  /-- An argument is not entered, and what it holds is visited as if it stood there itself. -/
  | through {name : Option String} {value : Node} {nodes : List Node} {calls : List Call}
      (h : Tours (value :: nodes) calls) : Tours (.argument name value :: nodes) calls
  | around {n : Node} {nodes : List Node} {inner later : List Call} (hn : n.sort ≠ .argument)
      (hinner : Tours n.inside inner) (hlater : Tours nodes later) :
      Tours (n :: nodes) (.enter n true :: inner ++ .leave n :: later)
  | past {n : Node} {nodes : List Node} {later : List Call} (hn : n.sort ≠ .argument)
      (hlater : Tours nodes later) : Tours (n :: nodes) (.enter n false :: .leave n :: later)

/-- The tour of one row and then of another is that of both. -/
theorem Tours.append {nodes more : List Node} {calls later : List Call} (h : Tours nodes calls)
    (hmore : Tours more later) : Tours (nodes ++ more) (calls ++ later) := by
  induction h with
  | nil => exact hmore
  | through _ ih => exact .through ih
  | around hn hinner _ _ ih =>
    rw [List.append_assoc, List.cons_append]
    exact .around hn hinner ih
  | past hn _ ih => exact .past hn ih

variable {σ : Type}

/-- From one state of the handlers to another one, the handlers are called as listed. -/
inductive Performs (v : Visitor (StateM σ)) : σ → List Call → σ → Prop
  | done (s : σ) : Performs v s [] s
  | enter {s t : σ} {n : Node} {f : Node → StateM σ Entered} {calls : List Call}
    (hf : v.enter n.sort = some f)
      (h : Performs v (f n s).2 calls t) : Performs v s (.enter n (f n s).1.deeper :: calls) t
  | leave {s t : σ} {n : Node} {f : Node → StateM σ Node} {calls : List Call}
    (hf : v.leave n.sort = some f)
      (h : Performs v (f n s).2 calls t) : Performs v s (.leave n :: calls) t

theorem Performs.append {v : Visitor (StateM σ)} {s t u : σ} {calls later : List Call}
    (h : v.Performs s calls t) (hlater : v.Performs t later u) :
    v.Performs s (calls ++ later) u := by
  induction h with
  | done s => exact hlater
  | enter hf _ ih => exact .enter hf (ih hlater)
  | leave hf _ ih => exact .leave hf (ih hlater)

/-- There are handlers for all sorts, and they leave the nodes as and where they are. -/
structure OnlyLooks (v : Visitor (StateM σ)) : Prop where
  enters : ∀ sort ≠ .argument, ∃ f, v.enter sort = some f ∧ ∀ n s, (f n s).1.node = n
  leaves : ∀ sort ≠ .argument, ∃ f, v.leave sort = some f ∧ ∀ n s, (f n s).1 = n
  replaces : v.replacing = false ∨ ∀ sort f, v.enter sort = some f → ∀ n s,
    (f n s).1.replacement = none

/-! ## The visit of a node -/

/-- From any state, a visit calls the handlers as on a tour of the node, and gives the node back. -/
def Walks (v : Visitor (StateM σ)) (visit : Node → StateM σ Substitute) (n : Node) : Prop :=
  ∀ s, ∃ calls t, Tours [n] calls ∧ v.Performs s calls t ∧ visit n s = (.node n, t)

section Walking

variable {v : Visitor (StateM σ)} {visit : Node → StateM σ Substitute}

/-- What a visit does to the state. -/
def looks (visit : Node → StateM σ Substitute) (n : Node) : StateM σ Unit := do
  let _ ← visit n
  return ()

/-- A walk through a node gives the node back. -/
theorem Walks.givesBack {n : Node} (h : Walks v visit n) : GivesBack visit (looks visit) n := by
  funext s
  obtain ⟨calls, t, _, _, hvisit⟩ := h s
  show visit n s = (.node n, (visit n s).2)
  rw [hvisit]

/-- Walks through the nodes of a row make a tour of the row. -/
theorem forM_walks {nodes : List Node} (h : ∀ x ∈ nodes, Walks v visit x) (s : σ) :
    ∃ calls t, Tours nodes calls ∧ v.Performs s calls t ∧ nodes.forM (looks visit) s = ((), t) := by
  induction nodes generalizing s with
  | nil => exact ⟨[], s, .nil, .done s, rfl⟩
  | cons n nodes ih =>
    obtain ⟨hn, hnodes⟩ := List.forall_mem_cons.mp h
    obtain ⟨calls, t, htour, hperforms, hvisit⟩ := hn s
    obtain ⟨later, u, hlater, hafter, hrest⟩ := ih hnodes t
    refine ⟨calls ++ later, u, htour.append hlater, hperforms.append hafter, ?_⟩
    show nodes.forM (looks visit) (visit n s).2 = ((), u)
    rw [hvisit]
    exact hrest

/-- Walks through the nodes inside of a node make a tour of them, and leave the node as it is. -/
theorem visitInside_walks {n : Node} (h : ∀ x ∈ n.inside, Walks v visit x) (s : σ) :
    ∃ calls t, Tours n.inside calls ∧ v.Performs s calls t ∧ visitInside visit n s = (n, t) := by
  obtain ⟨calls, t, htour, hperforms, hall⟩ := forM_walks h s
  refine ⟨calls, t, htour, hperforms, ?_⟩
  rw [visitInside_eq fun x hx => (h x hx).givesBack]
  show (n, (n.inside.forM (looks visit) s).2) = (n, t)
  rw [hall]

/-- A node with handlers is entered, what is inside of it is visited if that is wanted, and it is
left. -/
theorem visitHandled_walks (hv : v.OnlyLooks) {n : Node} (hn : n.sort ≠ .argument)
    (h : ∀ x ∈ n.inside, Walks v visit x) : Walks v (v.visitHandled visit) n := by
  intro s
  obtain ⟨enter, henter, hsame⟩ := hv.enters n.sort hn
  obtain ⟨leave, hleave, hback⟩ := hv.leaves n.sort hn
  have hstay : (if v.replacing then (enter n s).1.replacement else none) = none := by
    rcases hv.replaces with hfalse | hnone
    · rw [hfalse]
      rfl
    · rw [hnone n.sort enter henter n s, ite_self]
  -- the visit behind the handler for entering, from the state that this one leaves
  have hvisit : v.visitHandled visit n s =
      (do
        let visited ← if (enter n s).1.deeper then descend visit (.node n) else pure (.node n)
        depart leave n visited : StateM σ Substitute) (enter n s).2 := by
    simp only [visitHandled, henter, hleave]
    show (do
        let visited ← if (enter n s).1.deeper then
            descend visit
              ((if v.replacing then (enter n s).1.replacement else none).getD
                (.node (enter n s).1.node))
          else
            pure ((if v.replacing then (enter n s).1.replacement else none).getD
              (.node (enter n s).1.node))
        depart leave (enter n s).1.node visited : StateM σ Substitute) (enter n s).2 = _
    rw [hstay, hsame]
    rfl
  have hleft (t : σ) : depart leave n (.node n) t = (.node n, (leave n t).2) := by
    show (Substitute.node (leave n t).1, (leave n t).2) = _
    rw [hback]
  cases hdeeper : (enter n s).1.deeper with
  | false =>
    refine ⟨_, (leave n (enter n s).2).2, .past hn .nil,
      hdeeper ▸ .enter henter (.leave hleave (.done _)), ?_⟩
    rw [hvisit, hdeeper]
    exact hleft (enter n s).2
  | true =>
    obtain ⟨inner, t, htour, hperforms, hinside⟩ := visitInside_walks h (enter n s).2
    refine ⟨_, (leave n t).2, .around hn htour .nil,
      hdeeper ▸ .enter henter (hperforms.append (.leave hleave (.done _))), ?_⟩
    rw [hvisit, hdeeper]
    show depart leave n (.node (visitInside visit n (enter n s).2).1)
        (visitInside visit n (enter n s).2).2 = _
    rw [hinside]
    exact hleft t

/-- **A visit that only looks is a tour of the node.** -/
theorem visitWithin_walks (hv : v.OnlyLooks) (limit : Nat) {n : Node} (hlimit : n.depth ≤ limit) :
    Walks v (v.visitWithin limit) n := by
  induction limit generalizing n with
  | zero =>
    have hpos : 0 < n.depth := by cases n <;> simp [Node.depth]
    omega
  | succ limit ih =>
    have hinside : ∀ x ∈ n.inside, Walks v (v.visitWithin limit) x := fun x hx =>
      ih (Nat.le_of_lt_succ (Nat.lt_of_lt_of_le (Node.depth_lt_of_mem_inside hx) hlimit))
    intro s
    by_cases hn : n.sort = .argument
    · obtain ⟨calls, t, htour, hperforms, hvisit⟩ := visitInside_walks hinside s
      cases n with
      | argument name value =>
        refine ⟨calls, t, .through htour, hperforms, ?_⟩
        show (do return .node (← visitInside (v.visitWithin limit) (.argument name value)) : StateM
            σ Substitute) s = _
        exact congrArg (fun r => (Substitute.node r.1, r.2)) hvisit
      | _ => cases hn
    · rw [visitWithin, if_neg hn]
      exact visitHandled_walks hv hn hinside s

end Walking

end Visitor

end LessCss
