import LessCss.Proofs.Visiting.Corresponding
import LessCss.Visitor.Dispatch

/-!
# Remembering handlers makes no difference

A dispatcher is *faithful* to a visitor if what it remembers is what the visitor would say.  Looking
handlers up keeps it so, and the handlers themselves cannot reach what is remembered.  Hence a visit
by way of a faithful dispatcher does what the visit of the visitor does, whatever nodes have been
met before (`Dispatcher.visitWithin_agrees`); this goes for visitors of any kind, also for those
that replace nodes.

Together with the order of a visit this says what a visitor that only looks gets to see
(`Dispatcher.visit_recorded`).
-/

namespace LessCss

namespace NodeSort

/-- A sort is found among those with handlers at its number. -/
theorem getElem?_handled_of_number? {sort : NodeSort} {number : Nat}
    (h : sort.number? = some number) :
    handled[number - 1]? = some sort := by
  cases sort <;> cases h <;> rfl

/-- Sorts with numbers have different ones. -/
theorem number?_injective {sort sort' : NodeSort} {number : Nat} (h : sort.number? = some number)
    (h' : sort'.number? = some number) : sort = sort' :=
  Option.some.inj ((getElem?_handled_of_number? h).symm.trans (getElem?_handled_of_number? h'))

theorem number?_eq_none_iff {sort : NodeSort} : sort.number? = none ↔ sort = .argument := by
  cases sort <;> decide

end NodeSort

namespace Dispatcher

variable {σ α β : Type} {v : Visitor (StateM σ)}

/-- What is remembered are the handlers of the visitor. -/
def Faithful (v : Visitor (StateM σ)) (d : Dispatcher σ) : Prop :=
  ∀ sort number h, sort.number? = some number → d.known[number]? = some (some h) →
    h = v.handling sort

/-- At first nothing is remembered, which is faithful. -/
theorem ofState_faithful (v : Visitor (StateM σ)) (state : σ) : (ofState state).Faithful v := by
  intro sort number h _ hknown
  have hmem := List.mem_of_getElem? hknown
  exact absurd (List.eq_of_mem_replicate hmem) (by simp)

/-- Handlers that are looked up for the first time may be remembered. -/
theorem faithful_remember {d : Dispatcher σ} (hd : d.Faithful v) {sort : NodeSort} {number : Nat}
    (hnumber : sort.number? = some number) :
    Faithful v { d with known := d.known.set number (some (v.handling sort)) } := by
  intro other i handling hi hknown
  dsimp only at hknown
  by_cases hsame : number = i
  · subst hsame
    obtain ⟨_, hset⟩ := List.getElem?_eq_some_iff.mp hknown
    rw [List.getElem_set_self] at hset
    rw [NodeSort.number?_injective hi hnumber]
    exact (Option.some.inj hset).symm
  · rw [List.getElem?_set_ne hsame] at hknown
    exact hd other i handling hi hknown

/-- What is remembered is used again, and nothing changes. -/
theorem lookUp_of_known {d : Dispatcher σ} {number : Nat} {handling : Handling (StateM σ)}
    {sort : NodeSort} (h : d.known[number]? = some (some handling)) :
    lookUp v number sort d = (handling, d) := by
  simp only [lookUp, bind, StateT.bind, get, getThe, MonadStateOf.get, StateT.get, pure, h]
  rfl

/-- What is not remembered is asked of the visitor, and remembered. -/
theorem lookUp_of_new {d : Dispatcher σ} {number : Nat} {sort : NodeSort}
    (h : ∀ handling, d.known[number]? ≠ some (some handling)) : lookUp v number sort d =
      (v.handling sort, { d with known := d.known.set number (some (v.handling sort)) }) := by
  simp only [lookUp, bind, StateT.bind, get, getThe, MonadStateOf.get, StateT.get, pure]
  rcases hknown : d.known[number]? with _ | _ | handling
  · rfl
  · rfl
  · exact absurd hknown (h handling)

/-! ## Computations that agree -/

/-- From any faithful dispatcher, a computation does what another one does with the state alone, and
leaves a faithful dispatcher. -/
def Agrees (v : Visitor (StateM σ)) (p : StateM (Dispatcher σ) α) (q : StateM σ α) : Prop :=
  ∀ d : Dispatcher σ, d.Faithful v →
    ∃ known, p d = ((q d.state).1, ⟨(q d.state).2, known⟩) ∧
      (⟨(q d.state).2, known⟩ : Dispatcher σ).Faithful v

namespace Agrees

theorem pure (a : α) : Agrees v (Pure.pure a) (Pure.pure a) := fun d hd => ⟨d.known, rfl, hd⟩

/-- Two steps agree if each of them does. -/
theorem bind {p : StateM (Dispatcher σ) α} {q : StateM σ α} {f : α → StateM (Dispatcher σ) β}
    {g : α → StateM σ β} (h : Agrees v p q) (hf : ∀ a, Agrees v (f a) (g a)) :
    Agrees v (p >>= f) (q >>= g) := by
  intro d hd
  obtain ⟨known, hp, hknown⟩ := h d hd
  obtain ⟨last, hlast, hfaithful⟩ := hf (q d.state).1 _ hknown
  refine ⟨last, ?_, hfaithful⟩
  show f (p d).1 (p d).2 = _
  rw [hp]
  exact hlast

/-- What is done with a value found makes no difference if it is the same on both sides. -/
theorem andReturn {p : StateM (Dispatcher σ) α} {q : StateM σ α} (h : Agrees v p q) (f : α → β) :
    Agrees v (do return f (← p)) (do return f (← q)) := h.bind fun a => pure (f a)

theorem onState (x : StateM σ α) : Agrees v (Dispatcher.onState x) x :=
  fun d hd => ⟨d.known, rfl, hd⟩

/-- Handlers that are looked up are those of the visitor. -/
theorem lookUp_bind {sort : NodeSort} {number : Nat} (hnumber : sort.number? = some number)
    {f : Handling (StateM σ) → StateM (Dispatcher σ) β} {q : StateM σ β}
    (h : Agrees v (f (v.handling sort)) q) :
    Agrees v (lookUp v number sort >>= f) q := by
  intro d hd
  show ∃ known, f (lookUp v number sort d).1 (lookUp v number sort d).2 = _ ∧ _
  by_cases hmet : ∃ handling, d.known[number]? = some (some handling)
  · obtain ⟨handling, hknown⟩ := hmet
    rw [lookUp_of_known hknown, hd sort number handling hnumber hknown]
    exact h d hd
  · rw [lookUp_of_new fun handling hknown => hmet ⟨handling, hknown⟩]
    exact h _ (faithful_remember hd hnumber)

/-- To agree is a matter of what is done, whatever nodes are visited. -/
def correspondence (v : Visitor (StateM σ)) : Visitor.Correspondence Unit (Dispatcher σ) σ where
  Holds _ p q := Agrees v p (q ())
  pure := pure
  bind := bind

/-! ### What is inside of a node -/

section Inside

variable {visit : Node → StateM (Dispatcher σ) Substitute} {visit' : Node → StateM σ Substitute}

/-- Two ways to visit nodes agree on all nodes. -/
def AgreeAll (v : Visitor (StateM σ)) (visit : Node → StateM (Dispatcher σ) Substitute)
    (visit' : Node → StateM σ Substitute) : Prop := ∀ n, Agrees v (visit n) (visit' n)

theorem AgreeAll.each (h : AgreeAll v visit visit') :
    (correspondence v).Each visit fun _ => visit' := h

/-- What is done inside of a node agrees, if the visits of its nodes do. -/
theorem visitInside (h : AgreeAll v visit visit') (n : Node) :
    Agrees v (Visitor.visitInside visit n) (Visitor.visitInside visit' n) := h.each.visitInside n

theorem descend (h : AgreeAll v visit visit') (visited : Substitute) :
    Agrees v (Visitor.descend visit visited) (Visitor.descend visit' visited) :=
  h.each.descend visited

/-- To go on into what has taken the place of a node, or not. -/
theorem deeper_bind (h : AgreeAll v visit visit') {deeper : Bool}
    {f : Substitute → StateM (Dispatcher σ) Substitute} {g : Substitute → StateM σ Substitute}
    (hfg : ∀ visited, Agrees v (f visited) (g visited)) (visited : Substitute) :
    Agrees v (if deeper then Visitor.descend visit visited >>= f else Pure.pure visited >>= f)
      (if deeper then Visitor.descend visit' visited >>= g else Pure.pure visited >>= g) := by
  cases deeper with
  | false => exact (pure visited).bind hfg
  | true => exact (descend h visited).bind hfg

/-- Leaving a node agrees with leaving it in the state alone. -/
theorem depart (leave : Node → StateM σ Node) (n : Node) (visited : Substitute) :
    Agrees v (Visitor.depart (fun node => Dispatcher.onState (leave node)) n visited)
      (Visitor.depart leave n visited) := by
  cases visited with
  | node m => exact (onState (leave m)).andReturn _
  | nodes parts => exact (onState (leave n)).bind fun _ => pure _
  | absent => exact (onState (leave n)).bind fun _ => pure _

/-- The handlers of a sort, as a visitor of their own, do what they do in the visitor. -/
theorem visitHandled (h : AgreeAll v visit visit') (n : Node) :
    Agrees v ((uniform v.replacing (v.handling n.sort)).visitHandled visit n)
      (v.visitHandled visit' n) := by
  unfold Visitor.visitHandled
  dsimp only [uniform, Visitor.handling]
  cases v.leave n.sort with
  | none =>
    cases v.enter n.sort with
    | none => exact (pure _).bind fun entered => deeper_bind h (fun visited => pure visited) _
    | some enter =>
      exact (onState (enter n)).bind fun entered => deeper_bind h (fun visited => pure visited) _
  | some leave =>
    cases v.enter n.sort with
    | none => exact (pure _).bind fun entered => deeper_bind h (depart leave _) _
    | some enter => exact (onState (enter n)).bind fun entered => deeper_bind h (depart leave _) _

end Inside

end Agrees

/-- **A visit by way of a faithful dispatcher does what the visit of the visitor does.** -/
theorem visitWithin_agrees (v : Visitor (StateM σ)) (limit : Nat) (n : Node) :
    Agrees v (visitWithin v limit n) (v.visitWithin limit n) := by
  induction limit generalizing n with
  | zero => exact .pure _
  | succ limit ih =>
    rw [visitWithin, Visitor.visitWithin]
    cases hnumber : n.sort.number? with
    | none =>
      rw [if_pos (NodeSort.number?_eq_none_iff.mp hnumber)]
      exact (Agrees.visitInside ih n).andReturn _
    | some number =>
      have hn : n.sort ≠ .argument := fun harg => by
        rw [NodeSort.number?_eq_none_iff.mpr harg] at hnumber
        cases hnumber
      rw [if_neg hn]
      exact Agrees.lookUp_bind hnumber (Agrees.visitHandled ih n)

end Dispatcher

/-! ## What a visitor gets to see -/

namespace Visitor

variable {σ : Type} {v : Visitor (StateM σ)}

/-- The visitor with handlers that also write down each of their calls. -/
def recording (v : Visitor (StateM σ)) : Visitor (StateM (σ × List Visitor.Call)) where
  replacing := v.replacing
  enter sort := (v.enter sort).map fun enter node (s, calls) =>
    let (entered, t) := enter node s
    (entered, t, calls ++ [.enter node entered.deeper])
  leave sort := (v.leave sort).map fun leave node (s, calls) =>
    let (left, t) := leave node s
    (left, t, calls ++ [.leave node])

/-- A visitor that only looks does so when it writes down its calls. -/
theorem OnlyLooks.recording (hv : v.OnlyLooks) : v.recording.OnlyLooks where
  enters sort hsort := by
    obtain ⟨enter, henter, hsame⟩ := hv.enters sort hsort
    exact ⟨_, congrArg (Option.map _) henter, fun n s => hsame n s.1⟩
  leaves sort hsort := by
    obtain ⟨leave, hleave, hback⟩ := hv.leaves sort hsort
    exact ⟨_, congrArg (Option.map _) hleave, fun n s => hback n s.1⟩
  replaces := hv.replaces.imp_right fun hnone sort f hf n s => by
    obtain ⟨enter, henter, rfl⟩ := Option.map_eq_some_iff.mp hf
    exact hnone sort enter henter n s.1

/-- What is written down are the calls that are performed. -/
theorem Performs.of_recording {s t : σ × List Visitor.Call} {calls : List Visitor.Call}
    (h : v.recording.Performs s calls t) : v.Performs s.1 calls t.1 ∧ t.2 = s.2 ++ calls := by
  induction h with
  | done s => exact ⟨.done s.1, (List.append_nil s.2).symm⟩
  | enter hf _ ih =>
    obtain ⟨enter, henter, rfl⟩ := Option.map_eq_some_iff.mp hf
    refine ⟨.enter henter ih.1, ih.2.trans ?_⟩
    exact List.append_assoc _ _ _
  | leave hf _ ih =>
    obtain ⟨leave, hleave, rfl⟩ := Option.map_eq_some_iff.mp hf
    refine ⟨.leave hleave ih.1, ih.2.trans ?_⟩
    exact List.append_assoc _ _ _

end Visitor

namespace Dispatcher

open Visitor

variable {σ : Type}

/-- **A visitor that only looks sees a tour of the node, and the node stays as it is.**  Let a
visitor have handlers for all sorts that change no node, and let it not replace nodes, or its
handlers put nothing in their place.  Then a visit gives the node back, and the calls that are
written down meanwhile are a tour of the node: each node that has a sort with handlers is entered
before and left behind all that is inside of it, unless the handler of a node around it did not want
to go deeper.  The state of the handlers is what these calls make of it.  What the dispatcher
remembers from visits before makes no difference, and stays right. -/
theorem visit_recorded (v : Visitor (StateM σ)) (hv : v.OnlyLooks) (growth : Nat) (n : Node)
    (d : Dispatcher (σ × List Visitor.Call)) (hd : d.Faithful v.recording) :
    ∃ calls t known, Tours [n] calls ∧ v.Performs d.state.1 calls t ∧
      visit v.recording growth n d = (.node n, ⟨(t, d.state.2 ++ calls), known⟩) ∧
      (⟨(t, d.state.2 ++ calls), known⟩ : Dispatcher (σ × List Visitor.Call)).Faithful
        v.recording := by
  obtain ⟨calls, last, htour, hperforms, hvisit⟩ :=
    visitWithin_walks hv.recording (n.depth + growth) (Nat.le_add_right _ _) d.state
  obtain ⟨hown, hwritten⟩ := hperforms.of_recording
  obtain ⟨known, hrun, hfaithful⟩ := visitWithin_agrees v.recording (n.depth + growth) n d hd
  obtain ⟨t, log⟩ := last
  dsimp only at hwritten
  subst hwritten
  rw [hvisit] at hrun hfaithful
  exact ⟨calls, t, known, htour, hown, hrun, hfaithful⟩

/-- A visitor that counts the nodes it enters and does not look into calls of functions. -/
def counting : Visitor (StateM Nat) where
  replacing := false
  enter _ := some fun node count => (⟨node, node.sort ≠ .call, some .absent⟩, count + 1)
  leave _ := some fun node count => (node, count)

/-- A mixin call whose one argument is a row of a function call and a word. -/
def someCall : Node :=
  .mixinCall ".m" [.argument (some "@a") (.row [.call "f" [.keyword "hidden"] 0, .keyword "seen"])]
    false 0

/-- The visit of a mixin call, which meets sorts of nodes in an order of its own. -/
theorem visit_recorded_counting :
    counting.OnlyLooks ∧ (ofState ((0 : Nat), [])).Faithful counting.recording ∧
      (visit counting.recording 0 someCall (ofState (0, []))).2.state.1 = 4 ∧
      ∃ calls t known, Tours [someCall] calls ∧ counting.Performs 0 calls t ∧
        visit counting.recording 0 someCall (ofState (0, [])) =
          (.node someCall, ⟨(t, [] ++ calls), known⟩) ∧
        (⟨(t, [] ++ calls), known⟩ : Dispatcher (Nat × List Visitor.Call)).Faithful
          counting.recording := by
  have hlooks : counting.OnlyLooks :=
    ⟨fun _ _ => ⟨_, rfl, fun _ _ => rfl⟩, fun _ _ => ⟨_, rfl, fun _ _ => rfl⟩, .inl rfl⟩
  have hfaithful := ofState_faithful counting.recording (0, [])
  exact ⟨hlooks, hfaithful, by decide +kernel,
    visit_recorded counting hlooks 0 someCall _ hfaithful⟩

end Dispatcher

end LessCss
