import LessCss.Proofs.Evaluation.Kept
import LessCss.Proofs.Evaluation.Standards

/-!
# Errors that rules raise

Where all values of a stylesheet have a property that evaluation keeps (`Kept`), the errors that the
evaluation of its rules raises are of the sort that values raise (`Evaluation.eval_fails`), whatever
chain of definitions, mixins and arguments leads to them.  A rule passes on the errors of its
values, its names and its selectors, and those of the rules in it, and a declaration may give an
error a place on the way.
-/

namespace LessCss

open Evaluation

/-- The standard that all values have a property throughout. -/
def Kept.standard {K : Node → Prop} (hK : Kept K) : Standard :=
  .ofValues (Node.IsValueOf K) fun h => Node.isValueOf_iff.mpr ⟨rfl, hK.expression _ _ _ _, h⟩

/-- All that it takes for the errors of rules to be of a sort. -/
structure Raising {K : Node → Prop} (hK : Kept K) (F : Error → Prop) (d : Deeper) : Prop where
  keeping : Keeping K F (Context.Meets hK.standard) d
  locate : ∀ offset e, F e → F (Error.locate offset e)
  rules : ∀ c rules, c.Meets hK.standard → (∀ n ∈ rules, n.Meets hK.standard) →
    Fails (d.rules c rules) F

namespace Evaluation

variable {K : Node → Prop} {F : Error → Prop} {C : Context → Prop} {d : Deeper}

/-! ## Heads of rules and arguments -/

mutual
theorem fillSelector_fails (hk : Keeping K F C d) {c : Context} (hc : C c) : ∀ s : Selector,
    Fails (fillSelector d c s) F
  | .mk elements extending => by
    refine .bind (.mapM fun e _ => .bind (fill_fails hk hc e.text) fun _ => .ok _) fun _ => ?_
    exact .bind (fillTargets_fails hk hc extending) fun _ => .ok _
theorem fillTargets_fails (hk : Keeping K F C d) {c : Context} (hc : C c) :
    ∀ targets : List (Selector × Bool), Fails (fillTargets d c targets) F
  | [] => .ok _
  | (target, _) :: rest =>
    .bind (fillSelector_fails hk hc target) fun _ => .bind (fillTargets_fails hk hc rest)
      fun _ => .ok _
end

theorem evalHeader_fails (hk : Keeping K F C d) {c : Context} (hc : C c) {header : Option Node}
    (h : ∀ n ∈ header, n.IsValueOf K) : Fails (evalHeader d c header) F := by
  cases header with
  | none => exact .ok _
  | some n => exact .bind (eval_kept hk c n hc (h n rfl)).error fun _ => .ok _

/-- Arguments are evaluated as the values in them. -/
theorem evalArguments_kept (hk : Keeping K F C d) {c : Context} (hc : C c) : ∀ args : List Node,
    (∀ a ∈ args, ∃ name value, a = Node.argument name value ∧ value.IsValueOf K) →
    Ends (evalEach d c args) (fun vs => ∀ v ∈ vs, v.IsValueOf K) F
  | [], _ => .ok (List.forall_mem_nil _)
  | arg :: args, h => by
    obtain ⟨⟨name, value, rfl, hvalue⟩, hrest⟩ := List.forall_mem_cons.mp h
    refine .bind (eval_kept hk c value hc hvalue) fun y hy => ?_
    refine .bind (evalArguments_kept hk hc args hrest) fun vs hvs => ?_
    exact .ok (List.forall_mem_cons.mpr ⟨hy.toNode, hvs⟩)

/-! ## Rules -/

variable {hK : Kept K}

/-- The rules of a mixin that is called. -/
theorem expand_fails (h : Raising hK F d) {c : Context} (hc : c.Meets hK.standard) {m : Mixin}
    (hm : m.Meets hK.standard) (name : String) (args : List Node) {values : List Node}
    (hvalues : ∀ v ∈ values, v.IsValueOf K) (important : Bool) (offset : Nat) :
    Fails (expand d c m name args values important offset) F := by
  have hF {α : Type} {x : Except Error α} (hx : Fails x Error.Ordinary) : Fails x F :=
    hx.mono fun _ => h.keeping.errors.ordinary
  refine (Ends.of_fails (hF (argumentFrame_fails _ _ _ _))).fails fun frame hframe => ?_
  refine (Ends.of_fails (hF (inMixin_fails c name))).fails fun inside hinside => ?_
  have hargs : ∀ v ∈ ((args.map argumentName?).zip values).map Prod.snd, v.IsValueOf K :=
    fun v hv =>
    hvalues v (mem_values_of_named hv)
  have hmeets : (inside.inFrame frame).Meets hK.standard :=
    (hc.inMixin hinside).push (.ofArguments hframe hm hargs)
  exact .bind (h.rules (inside.inFrame frame) m.rules hmeets hm.rules) fun _ => .ok _

mutual
/-- **The errors of a rule are of the sort that its values raise.** -/
theorem eval_fails (h : Raising hK F d) :
    ∀ (c : Context) (n : Node), c.Meets hK.standard → n.Meets hK.standard →
    Fails (eval d c n) F
  | _, .comment .., _, _ => .ok _
  | _, .declaration _ _ _ true _, _, _ => .ok _
  | c, .declaration name value important false offset, hc, hn => by
    refine .bind (fill_fails h.keeping hc name) fun filled => ?_
    have hinside := hc.of_frames (sameScope_forProperty c filled).frames
    have hvalue := (eval_kept h.keeping _ value hinside hn.own).error
    exact .bind (hvalue.mapError (h.locate offset)) fun _ => .ok _
  | c, .ruleset selectors rules root, hc, hn => by
    obtain ⟨rfl, -⟩ := hn.own
    refine .bind ?_ fun _ => .ok _
    refine .bind (.mapM fun s _ => fillSelector_fails h.keeping hc s) fun own => ?_
    have hinside :
        ((c.underSelectors (Selector.joinAll c.selectors own)).inFrame (.ofRules rules)).Meets
          hK.standard :=
      Context.Meets.inFrame (hc.of_frames rfl) hn.ruleset
    exact .bind (evalSplice_fails h _ rules hinside hn.ruleset) fun _ => .ok _
  | c, .atRule name header none, hc, hn =>
    .bind (evalHeader_fails h.keeping hc hn.own.1) fun _ => .ok _
  | c, .atRule name header (some rules), hc, hn => by
    refine .bind (evalHeader_fails h.keeping hc hn.own.1) fun _ => ?_
    have hinside : ((insideAtRule c name).inFrame (.ofRules rules)).Meets hK.standard :=
      (hc.of_frames (sameScope_insideAtRule c name).frames).inFrame hn.atRule
    exact .bind (evalSplice_fails h _ rules hinside hn.atRule) fun _ => .ok _
  | c, .media features rules, hc, hn => by
    refine .bind (eval_kept h.keeping c features hc hn.own.1).error fun _ => ?_
    exact .bind (evalSplice_fails h _ rules (hc.inFrame hn.media) hn.media) fun _ => .ok _
  | c, .importRule path features options, hc, hn => by
    refine .bind (eval_kept h.keeping c path hc hn.own.1).error fun _ => ?_
    exact .bind (evalHeader_fails h.keeping hc hn.own.2) fun _ => .ok _
  | _, .mixin .., _, _ => .ok _
  | c, .mixinCall name args important offset, hc, hn => by
    unfold eval
    split
    · exact .error (h.keeping.errors.ordinary (Error.ordinary_undefinedMixin name offset))
    · next m found =>
      refine (evalArguments_kept h.keeping hc args hn.own).fails fun values hvalues => ?_
      exact .bind (expand_fails h hc (hc.mixin found) name args hvalues important offset)
        fun _ => .ok _
  | _, .dimension _, _, hn | _, .expression .., _, hn | _, .list _, _, hn | _, .paren _, _, hn
  | _, .keyword _, _, hn | _, .quoted .., _, hn | _, .url _, _, hn | _, .reference .., _, hn
  | _, .operation .., _, hn | _, .negative _, _, hn | _, .call .., _, hn | _, .selector _, _, hn
  | _, .argument .., _, hn => nomatch hn.isStatement
theorem evalSplice_fails (h : Raising hK F d) :
    ∀ (c : Context) (nodes : List Node), c.Meets hK.standard →
    (∀ n ∈ nodes, n.Meets hK.standard) → Fails (evalSplice d c nodes) F
  | _, [], _, _ => .ok _
  | c, node :: nodes, hc, hn => by
    obtain ⟨hnode, hnodes⟩ := List.forall_mem_cons.mp hn
    exact .bind (eval_fails h c node hc hnode) fun _ => .bind (evalSplice_fails h c nodes hc hnodes)
      fun _ => .ok _
end

end Evaluation

variable {K : Node → Prop} {F : Error → Prop}

theorem Kept.scopes (hK : Kept K) : Scoped (Node.IsValueOf K) (Context.Meets hK.standard) :=
  ⟨Context.Meets.of_frames, Context.Meets.definition⟩

/-- At any depth, evaluation fails in one of the ways foreseen only, by induction on the bound. -/
theorem Deeper.within_raising (hK : Kept K) (hF : Raised K F)
    (hlocate : ∀ offset e, F e → F (Error.locate offset e)) : ∀ k, Raising hK F (within k)
  | 0 => ⟨within_keeping hK hF hK.scopes 0, hlocate, fun _ _ _ _ => .error hF.unfinished⟩
  | k + 1 => ⟨within_keeping hK hF hK.scopes (k + 1), hlocate, fun _ rules hc hrules =>
    evalSplice_fails (within_raising hK hF hlocate k) _ rules (hc.inFrame hrules) hrules⟩

/-- **The errors of a stylesheet are of the sort that its values raise.** -/
theorem Ruleset.evaluate_fails (hK : Kept K) (hF : Raised K F)
    (hlocate : ∀ offset e, F e → F (Error.locate offset e)) {rules : List Node}
    (h : ∀ n ∈ rules, n.Meets hK.standard) (o : Options) :
    Fails ((ofRules rules).evaluate (.ofOptions o)) F := by
  have hraising := Deeper.within_raising hK hF hlocate ((Context.ofOptions o).bound rules)
  have hinside : ((Context.ofOptions o).inFrame (.ofRules rules)).Meets hK.standard :=
    (Context.Meets.ofOptions o).inFrame h
  have heval : Fails ((ofRules rules).eval (.ofOptions o)) F :=
    .bind (evalSplice_fails hraising _ rules hinside h) fun _ => .ok _
  exact .bind heval fun _ => .ok _

end LessCss
