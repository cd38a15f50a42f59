import LessCss.Evaluation.InPlace
import LessCss.Proofs.Evaluation.Results

/-!
# Evaluation leaves no traces

An evaluation in place changes its session all the time, and errors may end it anywhere.
Nevertheless the session is in the end what it was before, whatever the result
(`Session.eval_restores`), and the result is that of `Context.eval`, where nothing is changed at
all.

Everything follows from what entering does (`Session.enter_cases`): it fails and changes nothing, or
it can be undone by leaving.  Leaving undoes only the one change, so it leads back just if what was
done in between has led back too.  `Restores` says so of a computation, and there is one rule for
each way of putting computations together.
-/

namespace LessCss

open Session Evaluation

/-! ## Running computations -/

namespace Session

variable {α β : Type}

/-- A bind runs the first action and then, if that succeeds, the second on the session it leaves. -/
theorem run_bind (s : Session) (x : Action α) (f : α → Action β) :
    s.run (x >>= f) = match s.run x with
      | (.ok a, t) => t.run (f a)
      | (.error e, t) => (.error e, t) := by
  show (match s.run x with | (r, t) => t.run (ExceptT.mk (ExceptT.bindCont f r))) = _
  obtain ⟨r, t⟩ := s.run x
  cases r with
  | ok a => rfl
  | error e => rfl

/-- What stands in `finally` is done in any case, and the result is that of the body. -/
theorem run_finally (s : Session) (body : Action α) (f : Session → Session) :
    s.run (try body finally modify f) = ((s.run body).1, f (s.run body).2) := by
  cases hrun : s.run body with
  | mk r t =>
    have hbody : body s = (r, t) := hrun
    cases r with
    | ok a =>
      simp only [run, tryFinally, tryFinally', ExceptT.run, StateT.run, Functor.map, ExceptT.map,
        ExceptT.mk, bind, StateT.bind, hbody]
      rfl
    | error e =>
      simp only [run, tryFinally, tryFinally', ExceptT.run, StateT.run, Functor.map, ExceptT.map,
        ExceptT.mk, bind, StateT.bind, hbody]
      rfl

/-! ## Entering and leaving -/

/-- The variable must not be under way already. -/
theorem run_enter_definition (s : Session) (name : String) :
    s.run (enter (.definition name)) =
      if s.pending.contains name then (.error (.recursiveVariable name), s)
      else (.ok .definition, { s with pending := name :: s.pending }) := by
  rw [enter, run_bind]
  show s.run (if s.pending.contains name then _ else _) = _
  split
  · rfl
  · rfl

/-- The mixin must not nest too deep. -/
theorem run_enter_mixin (s : Session) (name : String) :
    s.run (enter (.mixin name)) =
      if s.mixinDepth ≥ mixinDepthLimit then (.error (.mixinTooDeep name), s)
      else (.ok .mixin, { s with mixinDepth := s.mixinDepth + 1 }) := by
  rw [enter, run_bind]
  show s.run (if s.mixinDepth ≥ mixinDepthLimit then _ else _) = _
  split
  · rfl
  · rfl

end Session

/-- The context inside of what is entered. -/
def Context.entered (c : Context) : Entry → Except Error Context
  | .parens => .ok c.inParens
  | .call isCalc => .ok (c.inCall isCalc)
  | .math mode => .ok (c.withMath mode)
  | .frame frame => .ok (c.inFrame frame)
  | .selectors selectors => .ok (c.underSelectors selectors)
  | .definition name => c.inVariable name
  | .mixin name => c.inMixin name

/-- **Entering fails and changes nothing, or leaving undoes it.**  In a session that was entered,
the context is the one inside of what was entered. -/
theorem Session.enter_cases (s : Session) (entry : Entry) :
    (∃ e, s.run (enter entry) = (.error e, s) ∧ s.context.entered entry = .error e) ∨
      ∃ exit t, s.run (enter entry) = (.ok exit, t) ∧ t.leave exit = s ∧
        s.context.entered entry = .ok t.context := by
  cases entry with
  | parens | call | math | frame | selectors => exact .inr ⟨_, _, rfl, rfl, rfl⟩
  | definition name =>
    rw [run_enter_definition]
    by_cases hpending : s.pending.contains name
    · refine .inl ⟨_, if_pos hpending, ?_⟩
      exact if_pos hpending
    · refine .inr ⟨_, _, if_neg hpending, rfl, ?_⟩
      exact if_neg hpending
  | mixin name =>
    rw [run_enter_mixin]
    by_cases hdepth : s.mixinDepth ≥ mixinDepthLimit
    · refine .inl ⟨_, if_pos hdepth, ?_⟩
      exact if_pos hdepth
    · refine .inr ⟨_, _, if_neg hdepth, rfl, ?_⟩
      exact if_neg hdepth

/-! ## Computations that restore the session -/

/-- In every session that amounts to a given context, a computation gives a result and leaves the
session as it was. -/
def Restores {α : Type} (c : Context) (x : Action α) (r : Except Error α) : Prop :=
  ∀ s : Session, s.context = c → s.run x = (r, s)

namespace Restores

variable {α β : Type} {c inner : Context}

theorem ok (a : α) : Restores c (pure a) (.ok a) := fun _ _ => rfl

theorem error (e : Error) : Restores c (throw e : Action α) (.error e) := fun _ _ => rfl

/-- A computation that has nothing to do with the session. -/
theorem lift (r : Except Error α) : Restores c (liftM r) r := fun _ _ => rfl

/-- One action behind another restores the session if both of them do. -/
theorem bind {x : Action α} {r : Except Error α} {f : α → Action β} {g : α → Except Error β}
    (hx : Restores c x r) (hf : ∀ a, Restores c (f a) (g a)) : Restores c (x >>= f) (r >>= g) := by
  intro s hs
  rw [run_bind, hx s hs]
  cases r with
  | ok a => exact hf a s hs
  | error e => rfl

theorem map {x : Action α} {r : Except Error α} (hx : Restores c x r) (f : α → β) :
    Restores c (do return f (← x)) (do return f (← r)) :=
  bind hx fun a => ok (f a)

/-- The context is looked up, and it is the one of the session that was restored. -/
theorem present {f : Context → Action β} {r : Except Error β} (h : Restores c (f c) r) :
    Restores c (InPlace.present >>= f) r := by
  rintro s rfl
  exact h s rfl

theorem locate {x : Action α} {r : Except Error α} (hx : Restores c x r) (offset : Nat) :
    Restores c (ExceptT.adapt (Error.locate offset) x) (r.mapError (Error.locate offset)) := by
  intro s hs
  show (fun p : Except Error α × Session => (p.1.mapError (Error.locate offset), p.2)) (s.run x) = _
  rw [hx s hs]

theorem mapM {f : α → Action β} {g : α → Except Error β} (h : ∀ a, Restores c (f a) (g a))
    (xs : List α) :
    Restores c (xs.mapM f) (xs.mapM g) := by
  induction xs with
  | nil => exact ok []
  | cons x xs ih =>
    rw [List.mapM_cons, List.mapM_cons]
    exact bind (h x) fun b => map ih (b :: ·)

/-- **What restores the session does so inside of anything.**  The session behind the body is the
one that was entered, so that leaving leads back. -/
theorem inside (entry : Entry) {body : Action α} {g : Context → Except Error α}
    (h : ∀ inner, c.entered entry = .ok inner → Restores inner body (g inner)) :
    Restores c (InPlace.inside entry body) (c.entered entry >>= g) := by
  rintro s rfl
  show s.run (enter entry >>= fun exit => try body finally modify (leave · exit)) = _
  rw [run_bind]
  obtain ⟨e, hrun, hentered⟩ | ⟨exit, t, hrun, hleave, hentered⟩ := s.enter_cases entry
  · rw [hrun, hentered]
    rfl
  · rw [hrun, hentered]
    show t.run (try body finally modify (leave · exit)) = (g t.context, s)
    rw [run_finally, h t.context hentered t rfl]
    exact congrArg (g t.context, ·) hleave

/-- The same for what can always be entered. -/
theorem inside_ok {entry : Entry} (hentered : c.entered entry = .ok inner) {body : Action α}
    {r : Except Error α} (h : Restores inner body r) :
    Restores c (InPlace.inside entry body) r := by
  have hinside : Restores c (InPlace.inside entry body) (c.entered entry >>= fun _ => r) := by
    refine inside entry fun other hother => ?_
    obtain rfl : inner = other := Except.ok.inj (hentered.symm.trans hother)
    exact h
  rwa [hentered] at hinside

end Restores

/-! ## Parts of evaluation -/

namespace InPlace

variable {d : Deeper} {d' : LessCss.Deeper} {α : Type}

/-- Definitions are evaluated in place as they are in a context, the session being restored. -/
structure Deeper.Restoring (d : Deeper) (d' : LessCss.Deeper) : Prop where
  node : ∀ c n, Restores c (d.node n) (d'.node c n)
  rules : ∀ c rules, Restores c (d.rules rules) (d'.rules c rules)

/-- Looking up a variable restores the session. -/
theorem reference_restores (hd : d.Restoring d') (c : Context) (name : String) (offset : Nat) :
    Restores c (reference d name offset) (Evaluation.reference d' c name offset) := by
  refine .present ?_
  rw [Evaluation.reference]
  cases c.definition? name with
  | none => exact .error _
  | some definition => exact .inside (.definition name) fun inner _ => hd.node inner definition

theorem fill_restores (hd : d.Restoring d') (c : Context) (text : String) :
    Restores c (fill d text) (Evaluation.fill d' c text) := by
  have hpart : ∀ part, Restores c (fillPart d part) (Evaluation.fillPart d' c part) := by
    intro part
    cases part with
    | plain char => exact .ok _
    | hole name offset =>
      refine .bind (reference_restores hd c _ offset) fun value => ?_
      exact .present (.lift _)
  exact .map (.mapM hpart _) _

mutual
theorem fillSelector_restores (hd : d.Restoring d') (c : Context) : ∀ selector : Selector,
    Restores c (fillSelector d selector) (Evaluation.fillSelector d' c selector)
  | .mk elements extending => by
    have helement : ∀ e : Element, Restores c (do return { e with text := ← fill d e.text })
        (do return { e with text := ← Evaluation.fill d' c e.text }) :=
      fun e => .map (fill_restores hd c e.text) _
    refine .bind (.mapM helement elements) fun filled => ?_
    exact .map (fillTargets_restores hd c extending) _
theorem fillTargets_restores (hd : d.Restoring d') (c : Context) :
    ∀ targets : List (Selector × Bool),
    Restores c (fillTargets d targets) (Evaluation.fillTargets d' c targets)
  | [] => .ok []
  | (target, all) :: rest => by
    refine .bind (fillSelector_restores hd c target) fun filled => ?_
    exact .map (fillTargets_restores hd c rest) _
end

/-- A row restores the session, if its items do inside of it. -/
theorem inRow_restores {c : Context} {parens operand : Bool} {body : Action α} {r : Except Error α}
    (h : Restores (insideRow c parens operand) body r) :
    Restores c (inRow parens operand body) r := by
  refine .present ?_
  rw [insideRow] at h
  by_cases hcounts : (parens && (c.math != .strictLegacy || !operand)) = true
  · rw [if_pos hcounts] at h ⊢
    exact .inside_ok rfl h
  · rw [if_neg hcounts] at h ⊢
    exact h

theorem inProperty_restores {c : Context} {name : String} {body : Action α} {r : Except Error α}
    (h : Restores (forProperty c name) body r) : Restores c (inProperty name body) r := by
  refine .present ?_
  rw [forProperty] at h
  by_cases hfont : (name == "font" && c.math == .always) = true
  · rw [if_pos hfont] at h ⊢
    exact .inside_ok rfl h
  · rw [if_neg hfont] at h ⊢
    exact h

theorem inAtRule_restores {c : Context} {name : String} {body : Action α} {r : Except Error α}
    (h : Restores (insideAtRule c name) body r) : Restores c (inAtRule name body) r := by
  rw [insideAtRule] at h
  rw [inAtRule]
  by_cases hkeeps : keepsSelectors name = true
  · rw [if_pos hkeeps] at h ⊢
    exact h
  · rw [if_neg hkeeps] at h ⊢
    exact .inside_ok rfl h

/-- A rule set restores the session, if its rules do inside of it. -/
theorem ruleset_restores (hd : d.Restoring d') (c : Context) (selectors : List Selector)
    (root : Bool) {rules : Action (List Node)} {g : Context → Except Error (List Node)}
    (h : ∀ inner, Restores inner rules (g inner)) :
    Restores c (ruleset d selectors root rules) (Evaluation.ruleset d' c selectors root g) := by
  cases root with
  | true => exact .map (h c) _
  | false =>
    refine .bind (.mapM (fillSelector_restores hd c) selectors) fun own => .present ?_
    exact .map (.inside_ok rfl (h _)) _

/-- A call of a mixin restores the session, whether it succeeds or not. -/
theorem expand_restores (hd : d.Restoring d') (c : Context) (m : Mixin) (name : String)
    (args values : List Node) (important : Bool) (offset : Nat) :
    Restores c (expand d m name args values important offset)
      (Evaluation.expand d' c m name args values important offset) := by
  refine .bind (.lift _) fun frame => ?_
  have hrules : ∀ inner, Restores inner (inside (.frame frame) (d.rules m.rules))
      (d'.rules (inner.inFrame frame) m.rules) := fun inner => .inside_ok rfl (hd.rules _ m.rules)
  rw [← bind_assoc]
  exact .map (.inside (.mixin name) fun inner _ => hrules inner) _

/-! ## Nodes -/

mutual
/-- **Evaluating a node in place restores the session**, given that evaluating definitions does, and
the result is the one in the context of the session. -/
theorem eval_restoring (hd : d.Restoring d') : ∀ (c : Context) (n : Node),
    Restores c (eval d n) (Evaluation.eval d' c n)
  | _, .dimension _ | _, .comment .. | _, .keyword _ | _, .selector _ | _, .mixin ..
  | _, .declaration _ _ _ true _ => .ok _
  | _, .expression [] _ _ _ => .present (.map (inRow_restores (.ok _)) _)
  | c, .expression [item] parens operand tight => by
    have hitem : Restores (insideRow c parens operand)
        (do
          let double := doublesParens (← present) item
          return (double, ← eval d item))
        (do return (doublesParens (insideRow c parens operand) item,
          ← Evaluation.eval d' (insideRow c parens operand) item)) :=
      .present (.map (eval_restoring hd _ item) _)
    have hrow := Restores.map (inRow_restores hitem) fun result =>
      Yield.one (keepParens c parens operand result.1 result.2.toNode)
    rw [bind_assoc] at hrow
    exact .present hrow
  | c, .expression (item :: next :: items) parens operand tight => by
    refine .present ?_
    exact .map (inRow_restores (evalSplice_restoring hd _ (item :: next :: items))) _
  | _, .list [] => .ok _
  | c, .list [item] => .map (eval_restoring hd c item) _
  | c, .list (item :: next :: items) => .map (evalEach_restoring hd c (item :: next :: items)) _
  | c, .paren inner => .map (eval_restoring hd c inner) _
  | c, .quoted _ text _ => .map (fill_restores hd c text) _
  | c, .url text => .map (fill_restores hd c text) _
  | c, .reference name offset => .map (reference_restores hd c name offset) _
  | c, .operation op left right spaced offset => by
    refine .bind (eval_restoring hd c left) fun l => ?_
    refine .bind (eval_restoring hd c right) fun r => ?_
    exact .present (.map (.lift _) _)
  | c, .negative inner => by
    refine .bind (eval_restoring hd c inner) fun value => ?_
    exact .present (.map (.lift _) _)
  | c, .call name args offset => by
    refine .bind (.inside_ok rfl (evalEach_restoring hd _ args)) fun values => ?_
    exact .present (.map (.lift _) _)
  | c, .declaration name value important false offset => by
    refine .bind (fill_restores hd c name) fun filled => ?_
    exact .map (.locate (inProperty_restores (eval_restoring hd _ value)) offset) _
  | c, .ruleset selectors rules root => by
    refine .map (ruleset_restores hd c selectors root fun inner => ?_) _
    exact .inside_ok rfl (evalSplice_restoring hd _ rules)
  | c, .atRule _ header none => .map (evalHeader_restoring hd c header) _
  | c, .atRule name header (some rules) => by
    refine .bind (evalHeader_restoring hd c header) fun header => .present ?_
    exact .map (inAtRule_restores (.inside_ok rfl (evalSplice_restoring hd _ rules))) _
  | c, .media features rules => by
    refine .bind (eval_restoring hd c features) fun features => .present ?_
    exact .map (.inside_ok rfl (evalSplice_restoring hd _ rules)) _
  | c, .importRule path features options => by
    refine .bind (eval_restoring hd c path) fun path => ?_
    exact .map (evalHeader_restoring hd c features) _
  | c, .mixinCall name args important offset => by
    refine .present ?_
    rw [Evaluation.eval]
    cases c.mixin? name with
    | none => exact .error _
    | some m =>
      refine .bind (evalEach_restoring hd c args) fun values => ?_
      exact .map (expand_restores hd c m name args values important offset) _
  | c, .argument _ value => eval_restoring hd c value
theorem evalEach_restoring (hd : d.Restoring d') : ∀ (c : Context) (nodes : List Node),
    Restores c (evalEach d nodes) (Evaluation.evalEach d' c nodes)
  | _, [] => .ok []
  | c, node :: nodes => by
    refine .bind (eval_restoring hd c node) fun result => ?_
    exact .map (evalEach_restoring hd c nodes) _
theorem evalSplice_restoring (hd : d.Restoring d') : ∀ (c : Context) (nodes : List Node),
    Restores c (evalSplice d nodes) (Evaluation.evalSplice d' c nodes)
  | _, [] => .ok []
  | c, node :: nodes => by
    refine .bind (eval_restoring hd c node) fun result => ?_
    exact .map (evalSplice_restoring hd c nodes) _
theorem evalHeader_restoring (hd : d.Restoring d') : ∀ (c : Context) (header : Option Node),
    Restores c (evalHeader d header) (Evaluation.evalHeader d' c header)
  | _, none => .ok none
  | c, some node => .map (eval_restoring hd c node) _
end

/-- At any depth, evaluation restores the session, by induction on the bound. -/
theorem Deeper.within_restoring : ∀ n, (Deeper.within n).Restoring (.within n)
  | 0 => ⟨fun _ _ => .error _, fun _ _ => .error _⟩
  | n + 1 =>
    { node := fun c node => .map (eval_restoring (within_restoring n) c node) _
      rules := fun _ rules => .inside_ok rfl (evalSplice_restoring (within_restoring n) _ rules) }

end InPlace

namespace Session

/-- **Evaluation leaves no traces.**  From any session whatever, evaluating a node gives the value
or the error that it has in the context of the session, and the session behind it is the one before,
in all of its fields. Entering something fails and changes nothing, as for a variable that is under
way or a mixin that nests too deep; or leaving it leads back. -/
theorem eval_restores (s : Session) (n : Node) :
    s.run (Session.eval n) = (s.context.eval n, s) ∧
      ∀ entry, (∃ e, s.run (enter entry) = (.error e, s)) ∨
        ∃ exit t, s.run (enter entry) = (.ok exit, t) ∧ t.leave exit = s := by
  have heval : Restores s.context (Session.eval n) (s.context.eval n) :=
    .present (InPlace.eval_restoring (InPlace.Deeper.within_restoring _) s.context n)
  refine ⟨heval s rfl, fun entry => ?_⟩
  obtain ⟨e, hrun, -⟩ | ⟨exit, t, hrun, hleave, -⟩ := s.enter_cases entry
  · exact .inl ⟨e, hrun⟩
  · exact .inr ⟨exit, t, hrun, hleave⟩

end Session

end LessCss
