import LessCss.Proofs.Visiting.Corresponding

/-!
# Visits that replace nodes

A handler that is called on entering a node may put several nodes in its place, or none.  What is
visited next are the nodes inside of those that stand in its place now, and only then the node is
left, once, however many nodes stand there.  `Visitor.Rounds` says so of a row of steps, without
looking at any state: it knows what came of entering each node.  `Visitor.Runs` says the opposite
half: what the handlers make of the steps.

Nothing bounds how deep a visitor goes that puts ever deeper nodes in place, so that a visit has a
limit; the nodes that lie at it are left as they are and noted as *cut off*.  Where none is, the
limit makes no difference.

All this is shown of computations side by side (`Visitor.Covers`), a visit with handlers that also
write down their calls, and the visits without this and with any greater limit.  That is a
correspondence, so that nothing has to be said about how results get into their places.
-/

namespace LessCss

/-! ## What stands in the place of a node -/

namespace Substitute

/-- The node that a handler for leaving gets to see: the one that stands in the place, or the node
that was entered if several nodes stand there or none. -/
def target (entered : Node) : Substitute → Node
  | node n => n
  | nodes _ | absent => entered

/-- With another node for the one that stands in the place; of several nodes, none is changed. -/
def withNode (n : Node) : Substitute → Substitute
  | node _ => node n
  | nodes parts => nodes parts
  | absent => absent

end Substitute

namespace Entered

/-- What stands in the place of a node once it has been entered. -/
def result (replacing : Bool) (e : Entered) : Substitute :=
  (if replacing then e.replacement else none).getD (.node e.node)

/-- The nodes to visit once a node has been entered: those inside of the nodes that stand in its
place. -/
def inside (replacing : Bool) (e : Entered) : List Node :=
  if e.deeper then (e.result replacing).leaves.flatMap Node.inside else []

/-- Whether a node may be seen by the handler for leaving: if a single node has taken the place,
this node with other nodes inside, and else the node that was entered. -/
def Leaves (replacing : Bool) (e : Entered) (n : Node) : Prop :=
  match e.result replacing with
  | .node m => n.sort = m.sort ∧ (e.deeper = false → n = m)
  | .nodes _ | .absent => n = e.node

end Entered

namespace Visitor

variable {σ α β : Type}

/-! ## Steps -/

/-- A step of a visit: a node is entered, with what comes of it, or a node is left whose place had a
node of the given sort. -/
inductive Step
  | enter (node : Node) (entered : Entered)
  | leave (sort : NodeSort) (node : Node)

/-- What is done on entering a node: what the handler for its sort does, if there is one. -/
def entering (v : Visitor (StateM σ)) (n : Node) : StateM σ Entered :=
  match v.enter n.sort with
  | some enter => enter n
  | none => pure ⟨n, true, none⟩

/-- What is done on leaving a node: what the handler for the sort does, if there is one. -/
def leaving (v : Visitor (StateM σ)) (sort : NodeSort) (n : Node) : StateM σ Node :=
  match v.leave sort with
  | some leave => leave n
  | none => pure n

/-- From one state of the handlers to another one, the steps are taken as listed. -/
inductive Runs (v : Visitor (StateM σ)) : σ → List Step → σ → Prop
  | done (s : σ) : Runs v s [] s
  | enter {s s' t : σ} {n : Node} {entered : Entered} {steps : List Step}
    (hn : v.entering n s = (entered, s'))
      (h : Runs v s' steps t) : Runs v s (.enter n entered :: steps) t
  | leave {s s' t : σ} {sort : NodeSort} {n left : Node} {steps : List Step}
    (hn : v.leaving sort n s = (left, s'))
      (h : Runs v s' steps t) : Runs v s (.leave sort n :: steps) t

/-- Runs follow one another. -/
theorem Runs.append {v : Visitor (StateM σ)} {s t u : σ} {steps later : List Step}
    (h : v.Runs s steps t) (hlater : v.Runs t later u) : v.Runs s (steps ++ later) u := by
  induction h with
  | done s => exact hlater
  | enter hn _ ih => exact .enter hn (ih hlater)
  | leave hn _ ih => exact .leave hn (ih hlater)

/-- The visitor with handlers for all sorts, which also write down each step. -/
def logging (v : Visitor (StateM σ)) : Visitor (StateM (σ × List Step)) where
  replacing := v.replacing
  enter _ := some fun n (s, log) =>
    let (entered, t) := v.entering n s
    (entered, t, log ++ [.enter n entered])
  leave sort := some fun n (s, log) =>
    let (left, t) := v.leaving sort n s
    (left, t, log ++ [.leave sort n])

/-- The steps of a visit of some nodes, for each of which a limit is given, and the nodes that are
cut off.  Between entering a node and leaving it are the steps for the nodes inside of what stands
in its place, if they are visited at all. -/
inductive Rounds (replacing : Bool) : List (Node × Nat) → List Step → List Node → Prop
  | nil : Rounds replacing [] [] []
  /-- What lies at the limit is left as it is. -/
  | beyond {n : Node} {row : List (Node × Nat)} {steps : List Step} {cut : List Node}
      (h : Rounds replacing row steps cut) : Rounds replacing ((n, 0) :: row) steps (n :: cut)
  /-- An argument is not entered, and what it holds is visited as if it stood there itself. -/
  | through {name : Option String} {value : Node} {limit : Nat} {row : List (Node × Nat)}
    {steps : List Step}
      {cut : List Node} (h : Rounds replacing ((value, limit) :: row) steps cut) :
      Rounds replacing ((.argument name value, limit + 1) :: row) steps cut
  | around {n m : Node} {limit : Nat} {row : List (Node × Nat)} {entered : Entered}
    {inner later : List Step}
      {cut cut' : List Node} (hn : n.sort ≠ .argument)
      (hinner : Rounds replacing ((entered.inside replacing).map (·, limit)) inner cut)
      (hm : entered.Leaves replacing m) (hlater : Rounds replacing row later cut') :
      Rounds replacing ((n, limit + 1) :: row) (.enter n entered :: inner ++ .leave n.sort m ::
        later) (cut ++ cut')

/-- The rounds of one row and then of another are those of both. -/
theorem Rounds.append {replacing : Bool} {row row' : List (Node × Nat)} {steps later : List Step}
    {cut cut' : List Node} (h : Rounds replacing row steps cut)
    (hlater : Rounds replacing row' later cut') :
    Rounds replacing (row ++ row') (steps ++ later) (cut ++ cut') := by
  induction h with
  | nil => exact hlater
  | beyond _ ih => exact .beyond ih
  | through _ ih => exact .through ih
  | around hn hinner hm _ _ ih =>
    rw [List.append_assoc, List.append_assoc, List.cons_append]
    exact .around hn hinner hm ih

/-! ## Entering, descending and leaving -/

/-- Leaving shows the handler the node in the place and puts back what it makes of it. -/
theorem depart_eq {m : Type → Type} [Monad m] [LawfulMonad m] (leave : Node → m Node) (n : Node)
    (visited : Substitute) :
    depart leave n visited = do return visited.withNode (← leave (visited.target n)) := by
  cases visited <;> rfl

/-- What is done between entering a node and leaving it. -/
def descent (replacing : Bool) (visit : Node → StateM σ Substitute) (entered : Entered) :
    StateM σ Substitute :=
  if entered.deeper then descend visit (entered.result replacing)
  else pure (entered.result replacing)

/-- A visit enters the node, goes inside of what stands in its place, and leaves it. -/
theorem visitHandled_eq (v : Visitor (StateM σ)) (visit : Node → StateM σ Substitute) (n : Node) :
    v.visitHandled visit n = (do
      let entered ← v.entering n
      let visited ← descent v.replacing visit entered
      depart (v.leaving n.sort) entered.node visited) := by
  have hbind (e : Entered) (f : Substitute → StateM σ Substitute) :
      descent v.replacing visit e >>= f =
      if e.deeper then descend visit (e.result v.replacing) >>= f
      else pure (e.result v.replacing) >>= f := by
    unfold descent
    split <;> rfl
  unfold visitHandled entering
  simp only [hbind]
  cases hleave : v.leave n.sort with
  | some leave =>
    have hleaving : v.leaving n.sort = leave := funext fun m => by rw [leaving, hleave]
    rw [hleaving]
    cases v.enter n.sort <;> rfl
  | none =>
    have hleaving : v.leaving n.sort = pure := funext fun m => by rw [leaving, hleave]
    have hdepart (m : Node) (visited : Substitute) : depart (v.leaving n.sort) m visited =
        pure visited := by
      rw [hleaving]
      cases visited <;> rfl
    simp only [hdepart]
    cases v.enter n.sort <;> rfl

/-- A node is entered, there is a descent into what stands in its place, and it is left. -/
theorem visitHandled_run {v : Visitor (StateM σ)} {visit : Node → StateM σ Substitute}
    {n left : Node} {s s' t u : σ} {entered : Entered} {visited : Substitute}
    (hentered : v.entering n s = (entered, s'))
    (hvisited : descent v.replacing visit entered s' = (visited, t))
    (hleft : v.leaving n.sort (visited.target entered.node) t = (left, u)) :
    v.visitHandled visit n s = (visited.withNode left, u) := by
  rw [visitHandled_eq]
  show (do
      let visited ← descent v.replacing visit (v.entering n s).1
      depart (v.leaving n.sort) (v.entering n s).1.node visited : StateM σ Substitute)
        (v.entering n s).2 = _
  rw [hentered]
  show depart (v.leaving n.sort) entered.node (descent v.replacing visit entered s').1
      (descent v.replacing visit entered s').2 = _
  rw [hvisited, depart_eq]
  show (visited.withNode (v.leaving n.sort (visited.target entered.node) t).1,
      (v.leaving n.sort (visited.target entered.node) t).2) = _
  rw [hleft]

/-- Logging writes down that a node is entered, and what comes of it. -/
theorem entering_logging {v : Visitor (StateM σ)} {n : Node} {s s' : σ} {entered : Entered}
    (h : v.entering n s = (entered, s')) (log : List Step) :
    v.logging.entering n (s, log) = (entered, (s', log ++ [.enter n entered])) := by
  show ((v.entering n s).1, ((v.entering n s).2, log ++ [.enter n (v.entering n s).1])) = _
  rw [h]

theorem leaving_logging {v : Visitor (StateM σ)} {sort : NodeSort} {n left : Node} {s s' : σ}
    (h : v.leaving sort n s = (left, s')) (log : List Step) :
    v.logging.leaving sort n (s, log) = (left, (s', log ++ [.leave sort n])) := by
  show ((v.leaving sort n s).1, ((v.leaving sort n s).2, log ++ [.leave sort n])) = _
  rw [h]

/-- The visit of what is inside of a node leaves its sort. -/
theorem sort_visitInside (visit : Node → StateM σ Substitute) (n : Node) (s : σ) :
    (visitInside visit n s).1.sort = n.sort := by
  cases n <;> rfl

/-- A single node that has taken the place stays single, and several nodes stay several. -/
theorem leaves_descent (replacing : Bool) (visit : Node → StateM σ Substitute)
    (e : Entered) (s : σ) :
    e.Leaves replacing ((descent replacing visit e s).1.target e.node) := by
  unfold descent Entered.Leaves
  cases e.deeper with
  | false =>
    cases e.result replacing with
    | node n => exact ⟨rfl, fun _ => rfl⟩
    | nodes parts => rfl
    | absent => rfl
  | true =>
    cases e.result replacing with
    | node n => exact ⟨sort_visitInside visit n s, nofun⟩
    | nodes parts => rfl
    | absent => rfl

/-! ## A visit that is written down, and visits with greater limits -/

/-- A computation `p` that writes down its steps visits some nodes, each within a limit.  The
computation `q 0` without writing does the same, and if no node is cut off, so do all others of `q`,
which have greater limits. -/
def Covers (v : Visitor (StateM σ)) (limit : Node → Nat) (nodes : List Node)
    (p : StateM (σ × List Step) α) (q : Nat → StateM σ α) : Prop :=
  ∀ s log, ∃ steps cut a t, Rounds v.replacing (nodes.map fun n => (n, limit n)) steps cut ∧
    v.Runs s steps t ∧
    p (s, log) = (a, (t, log ++ steps)) ∧ ∀ more, more = 0 ∨ cut = [] → q more s = (a, t)

namespace Covers

variable {v : Visitor (StateM σ)} {limit : Node → Nat}

theorem pure (a : α) : Covers v limit [] (Pure.pure a) fun _ => Pure.pure a := fun s log =>
  ⟨[], [], a, s, .nil, .done s, by rw [List.append_nil]; rfl, fun _ _ => rfl⟩

/-- What is done behind what is covered covers the nodes of both. -/
theorem bind {nodes nodes' : List Node} {p : StateM (σ × List Step) α} {q : Nat → StateM σ α}
    {f : α → StateM (σ × List Step) β} {g : Nat → α → StateM σ β} (h : Covers v limit nodes p q)
    (hf : ∀ a, Covers v limit nodes' (f a) fun more => g more a) :
    Covers v limit (nodes ++ nodes') (p >>= f) fun more => q more >>= g more := by
  intro s log
  obtain ⟨steps, cut, a, t, hrounds, hruns, hp, hq⟩ := h s log
  obtain ⟨later, cut', b, u, hlater, hafter, hf, hg⟩ := hf a t (log ++ steps)
  refine ⟨steps ++ later, cut ++ cut', b, u, ?_, hruns.append hafter, ?_, fun more hmore => ?_⟩
  · rw [List.map_append]
    exact hrounds.append hlater
  · show f (p (s, log)).1 (p (s, log)).2 = _
    rw [hp, hf, List.append_assoc]
  · show g more (q more s).1 (q more s).2 = _
    rw [hq more (hmore.imp_right fun h => (List.append_eq_nil_iff.mp h).1)]
    exact hg more (hmore.imp_right fun h => (List.append_eq_nil_iff.mp h).2)

/-- Nodes that are visited one after another are covered one after another. -/
def correspondence (v : Visitor (StateM σ)) (limit : Node → Nat) :
    Correspondence Nat (σ × List Step) σ where
  Holds nodes p q := Covers v limit nodes p q
  pure := pure
  bind := bind

/-- A node is entered, what is inside of the nodes in its place is visited if that is wanted, and it
is left. -/
theorem visitHandled {k : Nat} {visit : Node → StateM (σ × List Step) Substitute}
    {visit' : Nat → Node → StateM σ Substitute}
    (h : (correspondence v fun _ => k).Each visit visit') {n : Node} (hn : n.sort ≠ .argument) :
    Covers v (fun _ => k + 1) [n] (v.logging.visitHandled visit n) fun more =>
      v.visitHandled (visit' more) n := by
  intro s log
  obtain ⟨entered, s', hentered⟩ : ∃ entered s', v.entering n s = (entered, s') := ⟨_, _, rfl⟩
  have hdescent :
      Covers v (fun _ => k) (entered.inside v.replacing) (descent v.replacing visit entered)
        fun more =>
      descent v.replacing (visit' more) entered := by
    unfold descent Entered.inside
    cases entered.deeper with
    | false => exact pure _
    | true => exact h.descend _
  obtain ⟨inner, cut, visited, t, hinner, hruns, hp, hq⟩ := hdescent s' (log ++ [.enter n entered])
  have hleaves : entered.Leaves v.replacing (visited.target entered.node) := by
    have hvisited := leaves_descent v.replacing visit entered (s', log ++ [.enter n entered])
    rwa [hp] at hvisited
  obtain ⟨left, u, hleft⟩ : ∃ left u, v.leaving n.sort (visited.target entered.node) t =
      (left, u) := ⟨_, _, rfl⟩
  have hrounds : Rounds v.replacing [(n, k + 1)]
      (.enter n entered :: inner ++ [.leave n.sort (visited.target entered.node)]) (cut ++ []) :=
    .around hn hinner hleaves .nil
  refine ⟨_, _, visited.withNode left, u, hrounds,
    .enter hentered (hruns.append (.leave hleft (.done u))), ?_, fun more hmore => ?_⟩
  · have hlast := leaving_logging hleft (log ++ [.enter n entered] ++ inner)
    rw [visitHandled_run (entering_logging hentered log) hp hlast]
    simp
  · rw [List.append_nil] at hmore
    exact visitHandled_run hentered (hq more hmore) hleft

/-- **Every visit is written down as rounds of its nodes**, and greater limits change nothing if no
node is cut off. -/
theorem visitWithin (v : Visitor (StateM σ)) (limit : Nat) :
    (correspondence v fun _ => limit).Each (v.logging.visitWithin limit) fun more =>
      v.visitWithin (limit + more) := by
  induction limit with
  | zero =>
    intro n s log
    refine ⟨[], [n], .node n, s, .beyond .nil, .done s, by rw [List.append_nil]; rfl,
      fun more hmore => ?_⟩
    rcases hmore with rfl | hcut
    · rfl
    · cases hcut
  | succ limit ih =>
    intro n
    simp only [Nat.add_right_comm limit 1, Visitor.visitWithin]
    by_cases hn : n.sort = .argument
    · cases n with
      | argument name value =>
        simp only [if_pos hn]
        intro s log
        obtain ⟨steps, cut, a, t, hrounds, hruns, hrest⟩ :=
          Correspondence.andReturn (ih.visitInside (.argument name value)) Substitute.node s log
        exact ⟨steps, cut, a, t, .through hrounds, hruns, hrest⟩
      | _ => cases hn
    · simp only [if_neg hn]
      exact visitHandled ih hn

end Covers

/-- **What replaces nodes is spliced in, and each node is left once.**  For a visitor of any kind,
the visit of some nodes gives the leaves of their results side by side, in order.  The steps that
are written down meanwhile are rounds of the nodes: each node that has a sort with handlers is
entered once and left once, and in between are the steps for what is inside of the nodes that stand
in its place, be it one, several or none. The state of the handlers is what these steps make of it.
If no node is cut off, the same goes for all greater limits.  Below the row it is the same at every
depth: inside of a node each place gets the leaves of the result of the node that stood in it, and
inside of what has replaced a node every leaf is treated so. -/
theorem visitAll_splices (v : Visitor (StateM σ)) (growth : Nat) (nodes : List Node) (s : σ)
    (log : List Step) :
    (∃ results steps cut t, nodes.mapM (v.visit growth) s = (results, t) ∧
      v.visitAll growth nodes s = (results.flatMap Substitute.leaves, t) ∧
      v.logging.visitAll growth nodes (s, log) =
        (results.flatMap Substitute.leaves, (t, log ++ steps)) ∧
      Rounds v.replacing (nodes.map fun n => (n, n.depth + growth)) steps cut ∧ v.Runs s steps t ∧
      (cut = [] → ∀ more,
        v.visitAll (growth + more) nodes s = (results.flatMap Substitute.leaves, t))) ∧
    ∀ limit,
      (∀ n, visitInside (v.visitWithin limit) n = do
        return n.refill ((← n.inside.mapM (v.visitWithin limit)).map Substitute.leaves)) ∧
      ∀ result, (do return (← descend (v.visitWithin limit) result).leaves) =
        result.leaves.mapM (visitInside (v.visitWithin limit)) := by
  have heach : (Covers.correspondence v fun n => n.depth + growth).Each (v.logging.visit growth)
      fun more => v.visit (growth + more) := by
    intro n s log
    simp only [visit, ← Nat.add_assoc]
    exact Covers.visitWithin v (n.depth + growth) n s log
  obtain ⟨steps, cut, results, t, hrounds, hruns, hlogged, hplain⟩ := heach.mapM nodes s log
  have hvisitAll (more : Nat) (hmore : more = 0 ∨ cut = []) :
      v.visitAll (growth + more) nodes s = (results.flatMap Substitute.leaves, t) := by
    rw [visitAll, visitEach_eq_flatMap]
    exact congrArg (fun r => (r.1.flatMap Substitute.leaves, r.2)) (hplain more hmore)
  have hlog : v.logging.visitAll growth nodes (s, log) =
      (results.flatMap Substitute.leaves, (t, log ++ steps)) := by
    rw [visitAll, visitEach_eq_flatMap]
    exact congrArg (fun r => (r.1.flatMap Substitute.leaves, r.2)) hlogged
  refine ⟨⟨results, steps, cut, t, hplain 0 (.inl rfl), hvisitAll 0 (.inl rfl), hlog, hrounds,
    hruns, fun hcut more => hvisitAll more (.inr hcut)⟩, fun limit => ⟨fun n => ?_, leaves_descend⟩⟩
  simp only [visitInside_eq_refill, visitParts, bind_assoc, pure_bind]

/-- A visitor that puts two words in the place of one word and nothing in the place of another, and
writes down the words that it leaves. -/
def splitting : Visitor (StateM (List String)) where
  replacing := true
  enter _ := some fun n left => match n with
    | .keyword "b" =>
      (⟨n, true, some (.nodes [.node (.keyword "b1"), .nodes [.absent, .node (.keyword "b2")]])⟩,
        left)
    | .keyword "c" => (⟨n, true, some .absent⟩, left)
    | _ => (⟨n, true, none⟩, left)
  leave _ := some fun n left => match n with
    | .keyword text => (n, left ++ [text])
    | _ => (n, left)

example : splitting.visitAll 0 (["a", "b", "c"].map Node.keyword) [] =
    (["a", "b1", "b2"].map Node.keyword, ["a", "b", "c"]) := by
  cbv

end Visitor

end LessCss
