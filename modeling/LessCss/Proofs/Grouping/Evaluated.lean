import LessCss.Proofs.Grouping.Steady
import LessCss.Proofs.Nesting.RuleValues

/-!
# Operations in what is evaluated

Where all values of a stylesheet are steady, all operations that evaluation leaves are grouped as
they are written: no operand, at any depth, is an operation that binds less tight, no right one is
an operation that binds as tight, and nothing is the negative of an operation
(`Ruleset.evaluate_grouped`).

Without that this need not be so.  Parentheses around an operation that cannot be carried out are
lost, and what they kept apart is read otherwise (`Ruleset.evaluate_ungrouped`).
-/

namespace LessCss

open Evaluation Node

variable {r : Roles} {hr : "@arguments" ∉ r.numbers}

namespace Context.SteadyIn

variable {s : Standard} {c : Context}

/-- At the start no definitions are in scope, and math is on. -/
theorem ofOptions (o : Options) : (Context.ofOptions o).SteadyIn s := ⟨.ofOptions o, nofun⟩

theorem forProperty (h : c.SteadyIn s) (name : String) : (forProperty c name).SteadyIn s := by
  unfold Evaluation.forProperty
  split
  · exact ⟨h.meets.of_frames rfl, h.mathOff⟩
  · exact h

theorem push (h : c.SteadyIn s) {f : Frame} (hf : f.Meets s) : (c.inFrame f).SteadyIn s :=
  ⟨h.meets.push hf, h.mathOff⟩

/-- Inside of steady rules all definitions in scope are steady. -/
theorem inFrame (h : c.SteadyIn s) {rules : List Node} (hrules : ∀ n ∈ rules, n.Meets s) :
    (c.inFrame (.ofRules rules)).SteadyIn s := h.push (.ofRules hrules)

theorem underSelectors (h : c.SteadyIn s) (selectors : List Selector) :
    (c.underSelectors selectors).SteadyIn s :=
  ⟨h.meets.of_frames rfl, h.mathOff⟩

theorem insideAtRule (h : c.SteadyIn s) (name : String) : (insideAtRule c name).SteadyIn s := by
  unfold Evaluation.insideAtRule
  split
  · exact h
  · exact h.underSelectors []

theorem inMixin {name : String} {inside : Context} (h : c.SteadyIn s)
    (hi : c.inMixin name = .ok inside) :
    inside.SteadyIn s := by
  refine ⟨h.meets.inMixin hi, ?_⟩
  obtain ⟨-, rfl⟩ := inMixin_eq_ok hi
  exact h.mathOff

end Context.SteadyIn

/-- Definitions and mixins that are steady are evaluated to what is grouped as it is written. -/
structure Deeper.Groups (r : Roles) (s : Standard) (d : Deeper) : Prop where
  node : d.Steady r s
  rules : ∀ (c : Context) (rules : List Node), c.SteadyIn s → (∀ n ∈ rules, n.Meets s) →
    Ensures (d.rules c rules) (RulesOf GroupedValue)

namespace Evaluation

variable {d : Deeper}

/-- A steady value is evaluated to one that is grouped as it is written. -/
theorem value_grouped (hd : d.Steady r (steady r hr)) {c : Context} (hc : c.SteadyIn (steady r hr))
    {n : Node} (h : n.Steady r) : Ensures (eval d c n) fun y => y.toNode.GroupedValue := fun y hy =>
  (eval_steady hd c n hc h y hy).toNode.steady.grouped

theorem header_grouped (hd : d.Steady r (steady r hr)) {c : Context} (hc : c.SteadyIn (steady r hr))
    {header : Option Node} (h : ∀ n ∈ header, n.Steady r) :
    Ensures (evalHeader d c header) fun header => ∀ n ∈ header, n.GroupedValue := by
  cases header with
  | none =>
    refine .ok fun m hm => ?_
    cases hm
  | some n =>
    refine .bind (value_grouped hd hc (h n rfl)) fun y hy => .ok ?_
    rintro m hm
    cases hm
    exact hy

/-- The arguments of a call are evaluated to arguments that are firm and steady. -/
theorem arguments_steady (hd : d.Steady r (steady r hr)) {c : Context}
    (hc : c.SteadyIn (steady r hr)) :
    ∀ args : List Node,
    (∀ a ∈ args, ∃ name value, a = Node.argument name value ∧ value.Steady r ∧ value.isFirm r) →
    Ensures (evalEach d c args) fun vs => ∀ v ∈ vs, v.Steady r ∧ v.isFirm r := by
  refine evalArguments_ensures fun v hv y hy => ?_
  have hsteady := (eval_steady hd c v hc hv.1 y hy).toNode
  exact ⟨hsteady.steady, hsteady.firm hv.2⟩

/-- The rules of a mixin that is called. -/
theorem expand_grouped (hd : d.Groups r (steady r hr)) {c : Context} {m : Mixin}
    {values : List Node} (name : String) (args : List Node) (important : Bool) (offset : Nat)
    (hc : c.SteadyIn (steady r hr)) (hm : m.Meets (steady r hr))
    (hvalues : ∀ v ∈ values, v.Steady r ∧ v.isFirm r) :
    Ensures (expand d c m name args values important offset) (RulesOf GroupedValue) := by
  intro results hresults
  obtain ⟨frame, inside, rules, hframe, hinside, hrules, rfl⟩ := exists_of_expand hresults
  have hargs : ∀ v ∈ ((args.map argumentName?).zip values).map Prod.snd, v.Steady r ∧ v.isFirm r :=
    fun v hv =>
    hvalues v (mem_values_of_named hv)
  have hscope : (inside.inFrame frame).SteadyIn (steady r hr) :=
    (hc.inMixin hinside).push (.ofArguments hframe hm hargs)
  have hgrouped := hd.rules _ m.rules hscope hm.rules rules hrules
  split
  · exact rulesOf_makeAllImportant rules hgrouped
  · exact hgrouped

/-- Rules all of whose values are grouped as they are written. -/
def YieldsGrouped (y : Yield) : Prop := RulesOf GroupedValue y.toList

mutual
/-- **Where all values are steady, the values in what is evaluated are grouped as they are
written.** -/
theorem eval_grouped (hd : d.Groups r (steady r hr)) :
    ∀ (c : Context) (n : Node), c.SteadyIn (steady r hr) →
    n.Meets (steady r hr) → Ensures (eval d c n) YieldsGrouped
  | _, .comment .., _, _ => .ok ⟨trivial, trivial⟩
  | _, .declaration _ _ _ true _, _, _ => .ok trivial
  | c, .declaration name value _ false offset, hc, h => by
    refine .seq fun name => ?_
    refine .bind ((value_grouped hd.node (hc.forProperty name) h.own).mapError _) fun y hy => ?_
    exact .ok ⟨hy, trivial⟩
  | c, .ruleset selectors rules root, hc, h => by
    obtain ⟨rfl, -⟩ := h.own
    intro y hy
    obtain ⟨own, results, -, hresults, rfl⟩ := exists_of_eval_ruleset hy
    have hinside := (hc.underSelectors (Selector.joinAll c.selectors own)).inFrame h.ruleset
    exact ⟨⟨rfl, evalSplice_grouped hd _ rules hinside h.ruleset results hresults⟩, trivial⟩
  | c, .atRule name header none, hc, h => by
    refine .bind (header_grouped hd.node hc h.own.1) fun header hheader => ?_
    exact .ok ⟨⟨hheader, trivial⟩, trivial⟩
  | c, .atRule name header (some rules), hc, h => by
    refine .bind (header_grouped hd.node hc h.own.1) fun header hheader => ?_
    have hinside := (hc.insideAtRule name).inFrame h.atRule
    refine .bind (evalSplice_grouped hd _ rules hinside h.atRule) fun results hresults => ?_
    exact .ok ⟨⟨hheader, rulesOf_wrapAtRule c name hresults⟩, trivial⟩
  | c, .media features rules, hc, h => by
    refine .bind (value_grouped hd.node hc h.own.1) fun features hfeatures => ?_
    refine .bind (evalSplice_grouped hd _ rules (hc.inFrame h.media) h.media)
      fun results hresults => ?_
    exact .ok ⟨⟨hfeatures, rulesOf_wrap c.selectors hresults⟩, trivial⟩
  | c, .importRule path features options, hc, h => by
    refine .bind (value_grouped hd.node hc h.own.1) fun path hpath => ?_
    refine .bind (header_grouped hd.node hc h.own.2) fun features hfeatures => ?_
    exact .ok ⟨⟨hpath, hfeatures⟩, trivial⟩
  | _, .mixin .., _, _ => .ok trivial
  | c, .mixinCall name args important offset, hc, h => by
    unfold eval
    split
    · exact .error
    · next m hm =>
      refine .bind (arguments_steady hd.node hc args h.own) fun values hvalues => ?_
      have hrules := expand_grouped hd name args important offset hc (hc.meets.mixin hm) hvalues
      exact .bind hrules fun rules hrules => .ok hrules
  | _, .dimension _, _, h | _, .expression .., _, h | _, .list _, _, h | _, .paren _, _, h
  | _, .keyword _, _, h | _, .quoted .., _, h | _, .url _, _, h | _, .reference .., _, h
  | _, .operation .., _, h | _, .negative _, _, h | _, .call .., _, h | _, .selector _, _, h
  | _, .argument .., _, h => nomatch h.isStatement
/-- Steady rules are evaluated to rules grouped as they are written, by induction on the nodes. -/
theorem evalSplice_grouped (hd : d.Groups r (steady r hr)) : ∀ (c : Context) (nodes : List Node),
    c.SteadyIn (steady r hr) → (∀ n ∈ nodes, n.Meets (steady r hr)) →
    Ensures (evalSplice d c nodes) (RulesOf GroupedValue)
  | _, [], _, _ => .ok trivial
  | c, node :: nodes, hc, h => by
    obtain ⟨hnode, hnodes⟩ := List.forall_mem_cons.mp h
    refine .bind (eval_grouped hd c node hc hnode) fun y hy => ?_
    refine .bind (evalSplice_grouped hd c nodes hc hnodes) fun results hresults =>
      .ok (rulesOf_iff.mpr ?_)
    exact List.forall_mem_append.mpr ⟨rulesOf_iff.mp hy, rulesOf_iff.mp hresults⟩
end

end Evaluation

/-- At any depth, what is steady is evaluated to what is grouped as it is written. -/
theorem Deeper.within_groups : ∀ k, (Deeper.within k).Groups r (steady r hr)
  | 0 => ⟨within_steady 0, fun _ _ _ _ => .error⟩
  | k + 1 => by
    refine ⟨within_steady (k + 1), fun c rules hc hrules => ?_⟩
    exact evalSplice_grouped (within_groups k) _ rules (hc.inFrame hrules) hrules

/-! ## Stylesheets -/

/-- Where values are grouped as they are written and operands stay operands, all values are
steady. -/
theorem Node.Meets.steady {n : Node} (h : n.Meets Reading.readsValues_grouped.standard)
    (hkeeps : n.Throughout fun m => m.keepsOperands r) : n.Meets (LessCss.steady r hr) := by
  refine ⟨h.isStatement, fun m hm => ⟨trivial, ?_⟩⟩
  have hinside : m.Throughout fun k => k.keepsOperands r := hkeeps.of_occursIn hm
  have hsteady {v : Node} (hv : v.OccursIn m) (hgrouped : v.GroupedValue) : v.Steady r :=
    ⟨hgrouped.1, fun k hk => ⟨hgrouped.2 k hk, hinside.of_occursIn hv k hk⟩⟩
  refine (h.suits m hm).2.mono ?_ ?_ ?_ ?_
  · exact fun v hv hgrouped => hsteady (.inside hv .self) hgrouped
  · rintro name value important offset rfl hgrouped
    have hown := hinside.self
    simp only [keepsOperands, Bool.and_eq_true, Bool.or_eq_true, List.contains_iff_mem,
      Bool.not_eq_true', ← Bool.not_eq_true] at hown
    exact ⟨hsteady (.inside List.mem_cons_self .self) hgrouped, hown.1, fun hmem =>
      hown.2.resolve_left (· hmem)⟩
  · rintro name params guard rules rfl p hp
    have hown := List.all_eq_true.mp hinside.self p hp
    simp only [Bool.and_eq_true, Option.all_eq_true] at hown
    refine ⟨fun x hx hmem => ?_, fun v hv hgrouped =>
      ⟨hsteady (.inside ?_ .self) hgrouped, hown.2 v hv⟩⟩
    · simpa [hmem] using hown.1 x hx
    · exact List.mem_append_left _ (List.mem_filterMap.mpr ⟨p, hp, hv⟩)
  · intro name v hv hgrouped
    exact ⟨hsteady (.inside hv (.inside List.mem_cons_self .self)) hgrouped, (hinside.part hv).self⟩

namespace Ruleset

/-- **Operations that are left are grouped as they are written**, in the result of any stylesheet in
which operands stay operands, under any options. -/
theorem evaluate_grouped {source : String} {sheet result : Ruleset} {r : Roles}
    (hr : "@arguments" ∉ r.numbers) (o : Options) (hread : ofText source = .ok sheet)
    (hkeeps : sheet.toNode.Throughout fun n => n.keepsOperands r)
    (h : sheet.evaluate (.ofOptions o) = .ok result) :
    result.toNode.Throughout fun n => n.isGrouped := by
  obtain ⟨rules, rfl, hrules⟩ :=
    meets_ofText Reading.readsValues_grouped (Parse.sound_ofText source) hread
  have hmeets : ∀ n ∈ rules, n.Meets (steady r hr) :=
    fun n hn => (hrules n hn).steady (hkeeps.part hn)
  obtain ⟨evaluated, heval, hresult⟩ := exists_of_bind_eq_ok h
  obtain ⟨results, hresults, hevaluated⟩ := exists_of_bind_eq_ok heval
  cases hevaluated
  cases hresult
  have hgrouped : RulesOf GroupedValue results :=
    evalSplice_grouped (Deeper.within_groups _) _ rules
      ((Context.SteadyIn.ofOptions o).inFrame hmeets) hmeets
      results hresults
  have hflat : RulesOf GroupedValue (ofRules results).extend.flatten.rules := by
    refine rulesOf_flatten (fun n hn => hn.1) (fun _ => groupedValue_list)
      (fun a b ha hb => ?_) hgrouped
    exact groupedValue_row (by simp [ha, hb, groupedValue_keyword])
  refine throughout_iff.mpr ⟨rfl, ?_⟩
  exact rulesOf_throughout (fun n hn => hn.2) (fun n hn => isGrouped_of_isValueSort hn) _ hflat

/-- A variable and an argument of a mixin that are operands, and numbers in parentheses. -/
theorem evaluate_grouped_mixin : ∃ sheet result,
    ofText "@a:b;@n:1px;.m(@x)\x7by:(@x)*@a + c*d;w:(@n + 2px)*c\x7d.z\x7b.m(@a)\x7d" = .ok sheet ∧
    sheet.evaluate (.ofOptions {}) = .ok result ∧ result.toNode.Throughout fun n =>
      n.isGrouped := by
  have hcheck :
      (match ofText "@a:b;@n:1px;.m(@x)\x7by:(@x)*@a + c*d;w:(@n + 2px)*c\x7d.z\x7b.m(@a)\x7d" with
    | .ok sheet => decide (sheet.toNode.Throughout fun n => n.keepsOperands ⟨["@n"], []⟩) &&
      (sheet.evaluate (.ofOptions {})).toOption.isSome
    | .error _ => false) = true := by decide +kernel
  split at hcheck
  · next sheet hread =>
    obtain ⟨hkeeps, hsome⟩ := Bool.and_eq_true_iff.mp hcheck
    cases hresult : sheet.evaluate (.ofOptions {}) with
    | ok result =>
      exact ⟨sheet, result, hread, hresult,
        evaluate_grouped (r := ⟨["@n"], []⟩) nofun {} hread (of_decide_eq_true hkeeps) hresult⟩
    | error e =>
      rw [hresult] at hsome
      cases hsome
  · cases hcheck

/-- **Parentheses around a sum that cannot be carried out are lost**, those of a factor as much as
those of a negative, and the text of the result is that of other operations. -/
theorem evaluate_ungrouped :
    let evaluated := do (← ofText ".x\x7by:(a + b)*c;z:-(a + b)\x7d").evaluate (.ofOptions {})
    evaluated.toOption.map (fun result => decide (result.toNode.Throughout fun n => n.isGrouped)) =
      some false ∧
      (evaluated >>= fun result => Css.stylesheet ⟨none, false, true⟩ true result.rules).toOption =
        some ".x\x7by:a + b*c;z:-a + b\x7d" := by
  decide +kernel

end Ruleset

end LessCss
