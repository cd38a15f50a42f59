import LessCss.Proofs.Evaluation.Kept
import LessCss.Proofs.Evaluation.Termination

/-!
# The shape of evaluated stylesheets

Variables are defined by values, so values are evaluated to values.  A rule in which nothing is
called or extended is evaluated to such rules, or to none if it defines something.
-/

namespace LessCss

open Evaluation

/-! ## Scopes of values -/

/-- All variables in scope are defined by values. -/
def Context.Valued (c : Context) : Prop := ∀ f ∈ c.frames, ∀ v ∈ f.values, v.2.IsValue

/-- Definitions that are values are evaluated to values. -/
def Deeper.Valued (d : Deeper) : Prop :=
  ∀ c n, c.Valued → n.IsValue → Ensures (d.node c n) Node.IsValue

namespace Context.Valued

variable {c c' : Context}

theorem of_frames (h : c.Valued) (hframes : c'.frames = c.frames) : c'.Valued := by
  intro f hf
  exact h f (hframes ▸ hf)

/-- Inside of rules all variables in scope are defined by values. -/
theorem inFrame (h : c.Valued) {rules : List Node} (hrules : Node.AreRules rules) :
    (c.inFrame (.ofRules rules)).Valued := by
  intro f hf v hv
  rcases List.mem_cons.mp hf with rfl | hf
  · obtain ⟨important, offset, hmem⟩ := Frame.mem_values_ofRules hv
    exact Node.areRules_iff.mp hrules _ hmem
  · exact h f hf v hv

/-- What a variable is defined by is a value. -/
theorem definition {name : String} {n : Node} (h : c.Valued) (hn : c.definition? name = some n) :
    n.IsValue := by
  obtain ⟨f, hf, hmem⟩ := Context.mem_of_definition? hn
  exact h f hf _ hmem

end Context.Valued

namespace Evaluation

/-! ## Values -/

variable {d : Deeper}

/-- A single value. -/
def IsSingle (y : Yield) : Prop := ∃ v : Node, y = .one v ∧ v.IsValue

theorem IsSingle.one {v : Node} (h : v.IsValue) : IsSingle (.one v) := ⟨v, rfl, h⟩

theorem IsSingle.toNode {y : Yield} (h : IsSingle y) : y.toNode.IsValue := by
  obtain ⟨v, rfl, hv⟩ := h
  exact hv

/-- Evaluation keeps values in a context where all definitions are values. -/
theorem keeping_values (hd : d.Valued) :
    Keeping (fun _ => True) (fun _ => True) Context.Valued d where
  nodes := .any
  errors := .any
  scopes := ⟨Context.Valued.of_frames, fun hc hv => Node.isValueOf_true.mpr (hc.definition hv)⟩
  deeper c n hc hn :=
    ⟨fun v hv => Node.isValueOf_true.mpr (hd c n hc hn.1 v hv), fun _ _ => trivial⟩

/-- **A value is evaluated to a value.** -/
theorem eval_value (hd : d.Valued) (c : Context) (n : Node) (hc : c.Valued) (hn : n.IsValue) :
    Ensures (eval d c n) IsSingle := by
  intro y hy
  obtain ⟨v, rfl, hv⟩ :=
    (eval_kept (keeping_values hd) c n hc (Node.isValueOf_true.mpr hn)).value y hy
  exact .one hv.1

/-- A header that is a value is evaluated to one. -/
theorem evalHeader_value (hd : d.Valued) {c : Context} {header : Option Node} (hc : c.Valued)
    (h : Node.IsHeader header) : Ensures (evalHeader d c header) Node.IsHeader := by
  cases header with
  | none => exact .ok nofun
  | some n =>
    refine .bind (eval_value hd c n hc (h n rfl)) fun y hy => .ok ?_
    rintro m hm
    cases hm
    exact hy.toNode

end Evaluation

/-- At any depth, values are evaluated to values, by induction on the bound. -/
theorem Deeper.within_valued : ∀ k, (Deeper.within k).Valued
  | 0 => fun _ _ _ _ => .error
  | k + 1 =>
    fun c n hc hn => .bind (eval_value (within_valued k) c n hc hn) fun _ hy => .ok hy.toNode

/-- So they are when each definition has a bound of its own. -/
theorem Deeper.unbounded_valued : Deeper.unbounded.Valued := fun c n hc hn =>
  .bind (eval_value (within_valued _) c n hc hn) fun _ hy => .ok hy.toNode

/-! ## Selectors -/

namespace Selector

/-- A joined selector extends what its own part extends. -/
theorem extending_join (parent s : Selector) : (join parent s).extending = s.extending := by
  unfold join
  split
  · rfl
  · split <;> rfl

theorem extending_joinAll {parents own : List Selector} (h : ∀ s ∈ own, s.extending = []) :
    ∀ s ∈ joinAll parents own, s.extending = [] := by
  intro s hs
  unfold joinAll at hs
  split at hs
  · exact h s hs
  · obtain ⟨p, -, hs⟩ := List.mem_flatMap.mp hs
    obtain ⟨t, ht, rfl⟩ := List.mem_map.mp hs
    rw [extending_join]
    exact h t ht

/-- Joining selectors to those around leaves some. -/
theorem joinAll_ne_nil {parents own : List Selector} (h : own ≠ []) : joinAll parents own ≠ [] := by
  obtain ⟨s, own, rfl⟩ := List.exists_cons_of_ne_nil h
  unfold joinAll
  cases parents with
  | nil => exact List.cons_ne_nil _ _
  | cons p parents => simp

end Selector

namespace Evaluation

variable {d : Deeper}

/-- Filling the holes of a selector adds no extend clause. -/
theorem extending_fillSelector {c : Context} {s t : Selector} (h : fillSelector d c s = .ok t)
    (hs : s.extending = []) : t.extending = [] := by
  obtain ⟨elements, extending⟩ := s
  obtain rfl : extending = [] := hs
  obtain ⟨es, -, h⟩ := exists_of_bind_eq_ok h
  cases h
  rfl

/-- Selectors with their holes filled: they are as many, and still extend nothing. -/
theorem filled_selectors {c : Context} {selectors own : List Selector}
    (h : selectors.mapM (fillSelector d c) = .ok own) (hne : selectors ≠ [])
    (hextends : ∀ s ∈ selectors, s.extending = []) : own ≠ [] ∧ ∀ s ∈ own, s.extending = [] := by
  obtain ⟨hlength, hvalues⟩ := values_of_mapM h
  constructor
  · rintro rfl
    exact hne (List.length_eq_zero_iff.mp hlength.symm)
  · intro t ht
    obtain ⟨s, hs, hfill⟩ := hvalues t ht
    exact extending_fillSelector hfill (hextends s hs)

/-! ## Rules -/

/-- A context for rules in which nothing is called or extended. -/
structure SimpleIn (c : Context) : Prop where
  valued : c.Valued
  extendsNothing : ∀ s ∈ c.selectors, s.extending = []

namespace SimpleIn

theorem ofOptions (o : Options) : SimpleIn (.ofOptions o) :=
  ⟨fun _ hf => absurd hf List.not_mem_nil, fun _ hs => absurd hs List.not_mem_nil⟩

variable {c : Context}

/-- The context stays simple inside of simple rules. -/
theorem inFrame (h : SimpleIn c) {rules : List Node} (hrules : ∀ n ∈ rules, n.Simple) :
    SimpleIn (c.inFrame (.ofRules rules)) :=
  ⟨h.valued.inFrame (Node.rules_of_simple hrules).1, h.extendsNothing⟩

/-- The context stays simple under selectors without extend clauses. -/
theorem underSelectors (h : SimpleIn c) {own : List Selector} (hown : ∀ s ∈ own, s.extending = []) :
    SimpleIn (c.underSelectors (Selector.joinAll c.selectors own)) :=
  ⟨h.valued.of_frames rfl, Selector.extending_joinAll hown⟩

theorem insideAtRule (h : SimpleIn c) (name : String) : SimpleIn (insideAtRule c name) := by
  unfold Evaluation.insideAtRule
  split
  · exact h
  · exact ⟨h.valued.of_frames rfl, nofun⟩

end SimpleIn

/-- Wrapping simple rules in selectors without extend clauses leaves them simple. -/
theorem wrap_simple {selectors : List Selector} {rules : List Node}
    (hselectors : ∀ s ∈ selectors, s.extending = []) (h : ∀ n ∈ rules, n.Simple) :
    ∀ n ∈ wrap selectors rules, n.Simple := by
  have hfilter : ∀ p : Node → Bool, ∀ n ∈ rules.filter p, n.Simple := fun p n hn =>
    h n (List.mem_filter.mp hn).1
  unfold wrap
  split
  · exact h
  · next hne =>
    dsimp only
    split
    · exact hfilter _
    · refine List.forall_mem_cons.mpr ⟨?_, hfilter _⟩
      exact Node.simple_ruleset.mpr ⟨rfl, by simpa using hne, hselectors, hfilter _⟩

theorem wrapAtRule_simple {c : Context} (hc : SimpleIn c) (name : String) {rules : List Node}
    (h : ∀ n ∈ rules, n.Simple) : ∀ n ∈ wrapAtRule c name rules, n.Simple := by
  unfold wrapAtRule
  split
  · exact wrap_simple hc.extendsNothing h
  · exact h

/-- Rules in which nothing is called or extended. -/
def AreSimple (y : Yield) : Prop := ∀ n ∈ y.toList, n.Simple

theorem AreSimple.one {n : Node} (h : n.Simple) : AreSimple (.one n) := by
  intro m hm
  exact List.mem_singleton.mp hm ▸ h

mutual
/-- **A rule in which nothing is called or extended is evaluated to such rules.** -/
theorem eval_simple (hd : d.Valued) : ∀ (c : Context) (n : Node), SimpleIn c → n.Simple →
    Ensures (eval d c n) AreSimple
  | _, .comment .., _, _ => .ok (.one (Node.simple_comment _ _))
  | _, .declaration _ _ _ true _, _, _ => .ok nofun
  | c, .declaration name value _ false offset, hc, h => by
    refine .seq fun name => ?_
    have hvalued := hc.valued.of_frames (sameScope_forProperty c name).frames
    refine .bind ((eval_value hd _ value hvalued (Node.simple_declaration.mp h)).mapError _)
      fun y hy => ?_
    exact .ok (.one (Node.simple_declaration.mpr hy.toNode))
  | c, .ruleset selectors rules false, hc, h => by
    obtain ⟨-, hne, hextends, hrules⟩ := Node.simple_ruleset.mp h
    intro y hy
    obtain ⟨own, results, hown, hresults, rfl⟩ := exists_of_eval_ruleset hy
    obtain ⟨hne, hextends⟩ := filled_selectors hown hne hextends
    have hinside := (hc.underSelectors hextends).inFrame hrules
    have hsimple := evalSplice_simple hd _ rules hinside hrules results hresults
    exact .one (Node.simple_ruleset.mpr
      ⟨rfl, Selector.joinAll_ne_nil hne, Selector.extending_joinAll hextends, hsimple⟩)
  | _, .ruleset _ _ true, _, h => by
    cases (Node.simple_ruleset.mp h).1
  | c, .atRule _ header none, hc, h => by
    refine .bind (evalHeader_value hd hc.valued (Node.simple_bareAtRule.mp h))
      fun header hheader => ?_
    exact .ok (.one (Node.simple_bareAtRule.mpr hheader))
  | c, .atRule name header (some rules), hc, h => by
    obtain ⟨hheader, hrules⟩ := Node.simple_atRule.mp h
    refine .bind (evalHeader_value hd hc.valued hheader) fun header hheader => ?_
    have hinside := (hc.insideAtRule name).inFrame hrules
    refine .bind (evalSplice_simple hd _ rules hinside hrules) fun results hresults => ?_
    exact .ok (.one (Node.simple_atRule.mpr ⟨hheader, wrapAtRule_simple hc name hresults⟩))
  | c, .media features rules, hc, h => by
    obtain ⟨hfeatures, hrules⟩ := Node.simple_media.mp h
    refine .bind (eval_value hd c features hc.valued hfeatures) fun features hfeatures => ?_
    refine .bind (evalSplice_simple hd _ rules (hc.inFrame hrules) hrules)
      fun results hresults => ?_
    exact .ok (.one (Node.simple_media.mpr
      ⟨hfeatures.toNode, wrap_simple hc.extendsNothing hresults⟩))
  | c, .importRule path features _, hc, h => by
    obtain ⟨hpath, hfeatures⟩ := Node.simple_importRule.mp h
    refine .bind (eval_value hd c path hc.valued hpath) fun path hpath => ?_
    refine .bind (evalHeader_value hd hc.valued hfeatures) fun features hfeatures => ?_
    exact .ok (.one (Node.simple_importRule.mpr ⟨hpath.toNode, hfeatures⟩))
  | _, .mixin .., _, _ => .ok nofun
  | _, .mixinCall .., _, h => nomatch h.callFree
  | _, .dimension _, _, h | _, .expression .., _, h | _, .list _, _, h | _, .paren _, _, h
  | _, .keyword _, _, h | _, .quoted .., _, h | _, .url _, _, h | _, .reference .., _, h
  | _, .operation .., _, h | _, .negative _, _, h | _, .call .., _, h | _, .selector _, _, h
  | _, .argument .., _, h => h.isRule.elim
/-- Simple rules are evaluated to simple rules, by induction on the nodes. -/
theorem evalSplice_simple (hd : d.Valued) : ∀ (c : Context) (nodes : List Node), SimpleIn c →
    (∀ n ∈ nodes, n.Simple) → Ensures (evalSplice d c nodes) fun results => ∀ n ∈ results, n.Simple
  | _, [], _, _ => .ok nofun
  | c, node :: nodes, hc, h => by
    obtain ⟨hnode, hnodes⟩ := List.forall_mem_cons.mp h
    refine .bind (eval_simple hd c node hc hnode) fun y hy => ?_
    refine .bind (evalSplice_simple hd c nodes hc hnodes) fun results hresults => ?_
    exact .ok (List.forall_mem_append.mpr ⟨hy, hresults⟩)
end

end Evaluation

end LessCss
