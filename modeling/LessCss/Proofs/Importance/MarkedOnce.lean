import LessCss.Proofs.Evaluation.Styles
import LessCss.Proofs.Importance.Allowances
import LessCss.Proofs.Nesting.RuleValues
import LessCss.Proofs.Selectors.Extending

/-!
# Declarations that are important once

What makes a declaration important comes to it in three ways: it is written so, a mixin is called
with `!important`, or a variable in its value says the word.  In a stylesheet that keeps to an
allowance these do not meet: each declaration in the result is marked, or its value says the word
once, or neither (`Ruleset.evaluate_marksOnce`).

Without that they do meet: a variable that says the word in a declaration that is marked
(`Ruleset.evaluate_marksTwice`).
-/

namespace LessCss

open Evaluation Node

namespace Node

/-! ## Rules whose declarations are important once -/

/-- A declaration has a value and is marked as important, or its value says so once, or neither; and
if it is to be silent then its value does not say so. -/
def carries (silent : Bool) : Node → Prop
  | declaration _ value important _ _ =>
    value.IsValue ∧ value.marks 0 + (if important then 1 else 0) ≤ 1 ∧ (silent → value.marks 0 = 0)
  | _ => True

/-- A rule that evaluation leaves, in which every declaration is important at most once. -/
structure MarkedOnce (silent : Bool) (n : Node) : Prop where
  rule : n.RuleOf IsValue
  carries : n.Throughout (carries silent)

variable {silent : Bool}

/-- A value has no declarations in it. -/
theorem IsValue.carries {n : Node} (h : n.IsValue) : n.Throughout (Node.carries silent) := by
  intro m hm
  have hvalue : m.IsValue := hm.inherits (fun _ => IsValue.parts) h
  cases m with
  | declaration => exact hvalue.elim
  | _ => trivial

/-- It is enough to look at a rule itself and at the rules of its block. -/
theorem markedOnce_iff {n : Node} :
    n.MarkedOnce silent ↔ n.RuleOf IsValue ∧ n.carries silent ∧ ∀ k ∈ n.block,
      k.MarkedOnce silent := by
  constructor
  · intro h
    exact ⟨h.rule, h.carries.self, fun k hk =>
      ⟨h.rule.block k hk, h.carries.part (n.block_subset_parts hk)⟩⟩
  · rintro ⟨hrule, hcarries, hblock⟩
    refine ⟨hrule, throughout_iff.mpr ⟨hcarries, fun part hpart => ?_⟩⟩
    rcases hrule.parts part hpart with hpart | hvalue
    · exact (hblock part hpart).carries
    · exact hvalue.carries

/-- Rules that are silent are so all the more if they need not be. -/
theorem MarkedOnce.of_silent {n : Node} (h : n.MarkedOnce true) : n.MarkedOnce silent := by
  refine ⟨h.rule, h.carries.imp fun m hm => ?_⟩
  cases m with
  | declaration => exact ⟨hm.1, hm.2.1, fun _ => hm.2.2 rfl⟩
  | _ => trivial

/-- The rules in a rule that marks declarations once mark them once as well. -/
theorem MarkedOnce.block {n : Node} (h : n.MarkedOnce silent) :
    ∀ k ∈ n.block, k.MarkedOnce silent :=
  (markedOnce_iff.mp h).2.2

/-- Rules under selectors. -/
theorem markedOnce_ruleset {selectors : List Selector} {rules : List Node}
    (h : ∀ n ∈ rules, n.MarkedOnce silent) :
    (ruleset selectors rules false).MarkedOnce silent :=
  markedOnce_iff.mpr ⟨⟨rfl, rulesOf_iff.mpr fun n hn => (h n hn).rule⟩, trivial, h⟩

/-- Wrapping rules in the selectors around them marks nothing. -/
theorem markedOnce_wrap (selectors : List Selector) {rules : List Node}
    (h : ∀ n ∈ rules, n.MarkedOnce silent) :
    ∀ n ∈ wrap selectors rules, n.MarkedOnce silent := by
  have hfilter (p : Node → Bool) : ∀ n ∈ rules.filter p, n.MarkedOnce silent :=
    fun n hn => h n (List.mem_filter.mp hn).1
  unfold wrap
  split
  · exact h
  · dsimp only
    split
    · exact hfilter _
    · exact List.forall_mem_cons.mpr ⟨markedOnce_ruleset (hfilter _), hfilter _⟩

theorem markedOnce_wrapAtRule (c : Context) (name : String) {rules : List Node}
    (h : ∀ n ∈ rules, n.MarkedOnce silent) :
    ∀ n ∈ wrapAtRule c name rules, n.MarkedOnce silent := by
  unfold wrapAtRule
  split
  · exact markedOnce_wrap c.selectors h
  · exact h

mutual
/-- Rules whose values say nothing can be marked. -/
theorem markedOnce_makeImportant : ∀ n : Node, n.MarkedOnce true → (makeImportant n).MarkedOnce true
  | declaration name value important isVariable offset, h => by
    have hsilent : value.marks 0 = 0 := h.carries.self.2.2 rfl
    refine markedOnce_iff.mpr ⟨h.rule, ⟨h.rule, ?_, fun _ => hsilent⟩, nofun⟩
    rw [hsilent, zero_add]
    exact le_rfl
  | ruleset selectors rules root, h => by
    obtain ⟨rfl, -⟩ := h.rule
    exact markedOnce_ruleset (markedOnce_makeAllImportant rules h.block)
  | media features rules, h => by
    have hrules := markedOnce_makeAllImportant rules h.block
    exact markedOnce_iff.mpr ⟨⟨h.rule.1, rulesOf_iff.mpr fun n hn => (hrules n hn).rule⟩,
      trivial, hrules⟩
  | atRule .., h | importRule .., h | comment .., h => h
/-- Marking silent rules as important marks each declaration once. -/
theorem markedOnce_makeAllImportant : ∀ rules : List Node, (∀ n ∈ rules, n.MarkedOnce true) →
    ∀ n ∈ makeAllImportant rules, n.MarkedOnce true
  | [], _ => nofun
  | node :: nodes, h => by
    obtain ⟨hnode, hnodes⟩ := List.forall_mem_cons.mp h
    exact List.forall_mem_cons.mpr
      ⟨markedOnce_makeImportant node hnode, markedOnce_makeAllImportant nodes hnodes⟩
end

/-- Extensions do not touch what makes declarations important. -/
theorem markedOnce_mapSelectors (f : List Selector → List Selector) (n : Node)
    (h : n.MarkedOnce silent) :
    (mapSelectors f n).MarkedOnce silent := by
  induction n using induction_parts with
  | step n ih =>
    refine markedOnce_iff.mpr ⟨ruleOf_mapSelectors (fun _ hv => hv) f n h.rule, ?_, ?_⟩
    · cases n with
      | declaration name value important isVariable offset =>
        have hvalue : value.IsValue := h.rule
        rw [mapSelectors, mapSelectors_of_isValue f value hvalue]
        exact h.carries.self
      | _ => trivial
    · rw [block_mapSelectors, List.forall_mem_map]
      exact fun k hk => ih k (n.block_subset_parts hk) (h.block k hk)

/-- Taking rules apart marks nothing. -/
theorem rulewise_markedOnce : Rulewise (MarkedOnce silent) where
  ofRuleset h := h.block
  ruleset h hrules := by
    obtain ⟨rfl, -⟩ := h.rule
    exact markedOnce_ruleset hrules
  ofMedia h := h.block
  media h hrules :=
    markedOnce_iff.mpr ⟨⟨h.rule.1, rulesOf_iff.mpr fun n hn => (hrules n hn).rule⟩, trivial, hrules⟩
  underMedia ho h :=
    markedOnce_iff.mpr ⟨⟨bothQueries_isValue ho.rule.1 h.rule.1, h.rule.2⟩, trivial, h.block⟩
  ofAtRule h := h.block
  atRule h hrules :=
    markedOnce_iff.mpr ⟨⟨h.rule.1, rulesOf_iff.mpr fun n hn => (hrules n hn).rule⟩, trivial, hrules⟩

end Node

/-! ## Scopes -/

variable {A : Allowance} {silent : Bool}

/-- A stylesheet that says nothing keeps to an allowance all the more. -/
theorem Node.Meets.of_silent {n : Node} (h : n.Meets (thrifty A silent)) :
    n.Meets (thrifty A false) :=
  ⟨h.isStatement, h.suits.imp fun _ hm => ⟨⟨hm.1.1, nofun⟩, hm.2⟩⟩

/-- What keeps to an allowance and says nothing is silent. -/
theorem Node.Meets.of_saysNothing {n : Node} (h : n.Meets (thrifty A silent))
    (hnothing : n.all (saysNothing A) = true) : n.Meets (thrifty A true) := by
  have hnothing := (all_iff n).mp hnothing
  exact ⟨h.isStatement, fun m hm =>
    ⟨⟨(h.suits m hm).1.1, fun _ => hnothing m hm⟩, (h.suits m hm).2⟩⟩

/-- The definitions of a scope keep to an allowance, and the mixins that may be called with
`!important` say nothing. -/
structure Frame.KeepsTo (A : Allowance) (f : Frame) : Prop where
  meets : f.Meets (thrifty A false)
  silent : ∀ x ∈ f.mixins, x.1 ∈ A.calls → ∀ n ∈ x.2.rules, n.Meets (thrifty A true)

/-- All scopes around keep to an allowance. -/
def Context.KeepsTo (A : Allowance) (c : Context) : Prop := ∀ f ∈ c.frames, f.KeepsTo A

/-- The scope of thrifty rules keeps to the allowance. -/
theorem Frame.KeepsTo.ofRules {rules : List Node} (h : ∀ n ∈ rules, n.Meets (thrifty A silent)) :
    (Frame.ofRules rules).KeepsTo A := by
  refine ⟨.ofRules fun n hn => (h n hn).of_silent, fun x hx hcalls n hn => ?_⟩
  rcases mem_mixins_ofRules hx with ⟨hname, hmem⟩ | ⟨-, selectors, root, hkey, hmem⟩
  · have hkeeps := (h _ hmem).rule.1
    simp only [Mixin.toNode, keepsTo, Bool.and_eq_true, Bool.or_eq_true, Bool.not_eq_true',
      allOf_eq] at hkeeps
    have hnothing := hkeeps.2.resolve_left (by simpa [← hname] using hcalls)
    exact ((h _ hmem).mixin n hn).of_saysNothing (List.all_eq_true.mp hnothing n hn)
  · have hkeeps := (h _ hmem).rule.1
    simp only [keepsTo, hkey, Option.all_some, Bool.or_eq_true, Bool.not_eq_true',
      allOf_eq] at hkeeps
    have hnothing := hkeeps.resolve_left (by simpa using hcalls)
    exact ((h _ hmem).ruleset n hn).of_saysNothing (List.all_eq_true.mp hnothing n hn)

/-- The scope of parameters holds no mixins. -/
theorem Frame.KeepsTo.ofArguments {m : Mixin} {mixin : String} {offset : Nat}
    {args : List (Option String × Node)} {frame : Frame}
    (h : argumentFrame m mixin offset args = .ok frame) (hm : m.Meets (thrifty A false))
    (hargs : ∀ v ∈ args.map Prod.snd, (thrifty A false).argument v) : frame.KeepsTo A := by
  refine ⟨.ofArguments h hm hargs, ?_⟩
  rw [(argumentFrame_cases h).1]
  exact nofun

namespace Context.KeepsTo

variable {c c' : Context}

/-- The first context has no definitions, so that it keeps to any allowance. -/
theorem ofOptions (o : Options) : (Context.ofOptions o).KeepsTo A :=
  fun _ hf => absurd hf List.not_mem_nil

/-- Scopes that keep to an allowance hold thrifty definitions. -/
theorem meets (h : c.KeepsTo A) : c.Meets (thrifty A false) := fun f hf => (h f hf).meets

theorem of_frames (h : c.KeepsTo A) (hframes : c'.frames = c.frames) : c'.KeepsTo A := by
  intro f hf
  exact h f (hframes ▸ hf)

/-- Scopes still keep to an allowance with one more that does. -/
theorem push (h : c.KeepsTo A) {f : Frame} (hf : f.KeepsTo A) : (c.inFrame f).KeepsTo A :=
  List.forall_mem_cons.mpr ⟨hf, h⟩

theorem inFrame (h : c.KeepsTo A) {rules : List Node}
    (hrules : ∀ n ∈ rules, n.Meets (thrifty A silent)) :
    (c.inFrame (.ofRules rules)).KeepsTo A := h.push (.ofRules hrules)

theorem inMixin {name : String} {inside : Context} (h : c.KeepsTo A)
    (hi : c.inMixin name = .ok inside) :
    inside.KeepsTo A := by
  obtain ⟨-, rfl⟩ := inMixin_eq_ok hi
  exact h

/-- A mixin that is found meets what the allowance asks of it; one that may be called with
`!important` is silent. -/
theorem mixin {name : String} {m : Mixin} (h : c.KeepsTo A) (hm : c.mixin? name = some m) :
    m.Meets (thrifty A false) ∧ (name ∈ A.calls → ∀ n ∈ m.rules, n.Meets (thrifty A true)) := by
  obtain ⟨f, hf, hmem⟩ := mem_of_mixin? hm
  exact ⟨(h f hf).meets.mixins _ hmem, (h f hf).silent _ hmem⟩

end Context.KeepsTo

/-! ## Evaluating rules -/

/-- Definitions and mixins that keep to an allowance are evaluated to what says no more, and to
rules whose declarations are important once. -/
structure Deeper.MarksOnce (A : Allowance) (d : Deeper) : Prop where
  valued : d.Valued
  lessens : d.Lessens A
  rules : ∀ (silent : Bool) (c : Context) (rules : List Node), c.KeepsTo A →
    (∀ n ∈ rules, n.Meets (thrifty A silent)) → Ensures (d.rules c rules) fun rs => ∀ n ∈ rs,
      n.MarkedOnce silent

namespace Evaluation

variable {d : Deeper} {c : Context}

/-- What a value can become: a value that says no more. -/
theorem value_marks (hd : d.MarksOnce A) (hc : c.KeepsTo A) {n : Node} (h : n.IsValue) :
    Ensures (eval d c n) fun y => y.toNode.IsValue ∧ y.toNode.marks A.value ≤ n.marks A.value :=
  fun y hy => ⟨(eval_value hd.valued c n hc.meets.valued_of_thrifty h y hy).toNode,
    eval_marks hd.lessens c n hc.meets h y hy⟩

/-- The header of an at-rule is evaluated to a value. -/
theorem header_isValue (hd : d.MarksOnce A) (hc : c.KeepsTo A) {header : Option Node}
    (h : ∀ n ∈ header, n.IsValue) :
    Ensures (evalHeader d c header) fun header => ∀ n ∈ header, n.IsValue :=
  evalHeader_value hd.valued hc.meets.valued_of_thrifty h

/-- Arguments are evaluated to values that say no more than arguments may. -/
theorem arguments_marks (hd : d.MarksOnce A) (hc : c.KeepsTo A) : ∀ args : List Node,
    (∀ a ∈ args, ∃ name value, a = Node.argument name value ∧ (thrifty A silent).argument value) →
    Ensures (evalEach d c args) fun vs => ∀ v ∈ vs, (thrifty A false).argument v := by
  refine evalArguments_ensures fun v hv y hy => ?_
  obtain ⟨hvalue, hmarks⟩ := value_marks hd hc hv.1 y hy
  exact ⟨hvalue, hmarks.trans hv.2⟩

/-- The rules of a mixin that is called. -/
theorem expand_markedOnce (hd : d.MarksOnce A) {m : Mixin} {name : String} {values : List Node}
    {important : Bool} (args : List Node) (offset : Nat) (hc : c.KeepsTo A)
    (hm : c.mixin? name = some m) (hcalls : important = true ∨ silent = true → name ∈ A.calls)
    (hvalues : ∀ v ∈ values, (thrifty A false).argument v) :
    Ensures (expand d c m name args values important offset) fun rs => ∀ n ∈ rs,
      n.MarkedOnce silent := by
  intro results hresults
  obtain ⟨frame, inside, rules, hframe, hinside, hrules, rfl⟩ := exists_of_expand hresults
  obtain ⟨hmeets, hsilent⟩ := hc.mixin hm
  have hargs : ∀ v ∈ ((args.map argumentName?).zip values).map Prod.snd,
      (thrifty A false).argument v :=
    fun v hv => hvalues v (mem_values_of_named hv)
  have hscope : (inside.inFrame frame).KeepsTo A :=
    (hc.inMixin hinside).push (.ofArguments hframe hmeets hargs)
  by_cases hname : name ∈ A.calls
  · have honce := hd.rules true _ m.rules hscope (hsilent hname) rules hrules
    split
    · exact fun n hn => (markedOnce_makeAllImportant rules honce n hn).of_silent
    · exact fun n hn => (honce n hn).of_silent
  · -- a mixin that may not be called with the mark is neither called with it nor called from silent
    -- rules
    obtain ⟨himportant, hloud⟩ := not_or.mp (mt hcalls hname)
    rw [if_neg himportant, Bool.eq_false_iff.mpr hloud]
    exact hd.rules false _ m.rules hscope hmeets.rules rules hrules

/-- Rules that make declarations important once. -/
def YieldsMarkedOnce (silent : Bool) (y : Yield) : Prop := ∀ n ∈ y.toList, n.MarkedOnce silent

theorem YieldsMarkedOnce.one {n : Node} (h : n.MarkedOnce silent) :
    YieldsMarkedOnce silent (.one n) :=
  List.forall_mem_singleton.mpr h

/-- A declaration whose value says no more than before. -/
theorem declaration_markedOnce {name name' : String} {value value' : Node} {important : Bool}
    {offset : Nat}
    (h : (Node.declaration name value important false offset).Meets (thrifty A silent))
    (hvalue : value'.IsValue) (hmarks : value'.marks A.value ≤ value.marks A.value) :
    (Node.declaration name' value' important false offset).MarkedOnce silent := by
  obtain ⟨hkeeps, hnothing⟩ := h.rule
  have hless : value'.marks 0 ≤ value.marks A.value :=
    (hvalue.marks_mono fun _ => zero_le).trans hmarks
  refine markedOnce_iff.mpr ⟨hvalue, ⟨hvalue, ?_, fun hsilent => ?_⟩, nofun⟩
  · exact (add_le_add hless le_rfl).trans (of_decide_eq_true hkeeps)
  · have hzero : value.marks A.value = 0 := of_decide_eq_true (hnothing hsilent)
    exact le_zero_iff.mp (hzero ▸ hless)

mutual
/-- **Where all rules keep to an allowance, declarations are important once in what is
evaluated.** -/
theorem eval_markedOnce (hd : d.MarksOnce A) : ∀ (c : Context) (n : Node), c.KeepsTo A →
    n.Meets (thrifty A silent) → Ensures (eval d c n) (YieldsMarkedOnce silent)
  | _, .comment .., _, _ => .ok (.one (markedOnce_iff.mpr ⟨trivial, trivial, nofun⟩))
  | _, .declaration _ _ _ true _, _, _ => .ok nofun
  | c, .declaration name value _ false offset, hc, h => by
    refine .seq fun name => ?_
    refine .bind
      ((value_marks hd (hc.of_frames (sameScope_forProperty c name).frames) h.own).mapError _)
        fun y hy => ?_
    exact .ok (.one (declaration_markedOnce h hy.1 hy.2))
  | c, .ruleset selectors rules root, hc, h => by
    obtain ⟨rfl, -⟩ := h.own
    intro y hy
    obtain ⟨own, results, -, hresults, rfl⟩ := exists_of_eval_ruleset hy
    have hinside : (c.underSelectors (Selector.joinAll c.selectors own)).KeepsTo A :=
      hc.of_frames rfl
    exact .one (markedOnce_ruleset
      (evalSplice_markedOnce hd _ rules (hinside.inFrame h.ruleset) h.ruleset results hresults))
  | c, .atRule name header none, hc, h => by
    refine .bind (header_isValue hd hc h.own.1) fun header hheader => ?_
    exact .ok (.one (markedOnce_iff.mpr ⟨⟨hheader, trivial⟩, trivial, nofun⟩))
  | c, .atRule name header (some rules), hc, h => by
    refine .bind (header_isValue hd hc h.own.1) fun header hheader => ?_
    have hinside := (hc.of_frames (sameScope_insideAtRule c name).frames).inFrame h.atRule
    refine .bind (evalSplice_markedOnce hd _ rules hinside h.atRule) fun results hresults =>
      .ok (.one ?_)
    have hrules := markedOnce_wrapAtRule c name hresults
    exact markedOnce_iff.mpr ⟨⟨hheader, rulesOf_iff.mpr fun n hn => (hrules n hn).rule⟩,
      trivial, hrules⟩
  | c, .media features rules, hc, h => by
    refine .bind (value_marks hd hc h.own.1) fun features hfeatures => ?_
    refine .bind (evalSplice_markedOnce hd _ rules (hc.inFrame h.media) h.media)
      fun results hresults => .ok (.one ?_)
    have hrules := markedOnce_wrap c.selectors hresults
    exact markedOnce_iff.mpr ⟨⟨hfeatures.1, rulesOf_iff.mpr fun n hn => (hrules n hn).rule⟩,
      trivial, hrules⟩
  | c, .importRule path features options, hc, h => by
    refine .bind (value_marks hd hc h.own.1) fun path hpath => ?_
    refine .bind (header_isValue hd hc h.own.2) fun features hfeatures => ?_
    exact .ok (.one (markedOnce_iff.mpr ⟨⟨hpath.1, hfeatures⟩, trivial, nofun⟩))
  | _, .mixin .., _, _ => .ok nofun
  | c, .mixinCall name args important offset, hc, h => by
    unfold eval
    split
    · exact .error
    · next m hm =>
      obtain ⟨hkeeps, hnothing⟩ := h.rule
      have hcalls : important = true ∨ silent = true → name ∈ A.calls := by
        rintro (rfl | hsilent)
        · simpa [keepsTo] using hkeeps
        · simpa [saysNothing] using hnothing hsilent
      refine .bind (arguments_marks hd hc args h.own) fun values hvalues => ?_
      exact .bind (expand_markedOnce hd args offset hc hm hcalls hvalues) fun rules hrules =>
        .ok hrules
  | _, .dimension _, _, h | _, .expression .., _, h | _, .list _, _, h | _, .paren _, _, h
  | _, .keyword _, _, h | _, .quoted .., _, h | _, .url _, _, h | _, .reference .., _, h
  | _, .operation .., _, h | _, .negative _, _, h | _, .call .., _, h | _, .selector _, _, h
  | _, .argument .., _, h => nomatch h.isStatement
/-- Thrifty rules are evaluated to rules whose declarations are important once, by induction on the
nodes. -/
theorem evalSplice_markedOnce (hd : d.MarksOnce A) :
    ∀ (c : Context) (nodes : List Node), c.KeepsTo A →
    (∀ n ∈ nodes, n.Meets (thrifty A silent)) →
    Ensures (evalSplice d c nodes) fun rs => ∀ n ∈ rs, n.MarkedOnce silent
  | _, [], _, _ => .ok nofun
  | c, node :: nodes, hc, h => by
    obtain ⟨hnode, hnodes⟩ := List.forall_mem_cons.mp h
    refine .bind (eval_markedOnce hd c node hc hnode) fun y hy => ?_
    exact .bind (evalSplice_markedOnce hd c nodes hc hnodes) fun rs hrs =>
      .ok (List.forall_mem_append.mpr ⟨hy, hrs⟩)
end

end Evaluation

/-- At any depth, what keeps to an allowance is evaluated to what marks declarations once. -/
theorem Deeper.within_marksOnce : ∀ k, (Deeper.within k).MarksOnce A
  | 0 => ⟨within_valued 0, within_lessens 0, fun _ _ _ _ _ => .error⟩
  | k + 1 => by
    refine ⟨within_valued (k + 1), within_lessens (k + 1), fun silent c rules hc hrules => ?_⟩
    exact evalSplice_markedOnce (within_marksOnce k) _ rules (hc.inFrame hrules) hrules

/-! ## Stylesheets -/

/-- Where values stand in the places of values and every node keeps to an allowance, everything is
thrifty. -/
theorem Node.Meets.thrifty {n : Node} (h : n.Meets Reading.readsValues_isValue.standard)
    (hkeeps : n.Throughout fun m => m.keepsTo A) : n.Meets (LessCss.thrifty A false) := by
  refine ⟨h.isStatement, fun m hm => ⟨⟨hkeeps m hm, nofun⟩, ?_⟩⟩
  have hown : m.keepsTo A := hkeeps m hm
  refine (h.suits m hm).2.mono (fun v _ hvalue => hvalue) ?_ ?_ ?_
  · rintro name value important offset rfl hvalue
    exact ⟨hvalue, of_decide_eq_true hown⟩
  · rintro name params guard rules rfl p hp
    have hparam := List.all_eq_true.mp (Bool.and_eq_true_iff.mp hown).1 p hp
    simp only [Bool.and_eq_true, Option.all_eq_true, decide_eq_true_eq] at hparam
    exact ⟨hparam.1, fun v hv hvalue => ⟨hvalue, hparam.2 v hv⟩⟩
  · intro name v hv hvalue
    exact ⟨hvalue, of_decide_eq_true (hkeeps.of_occursIn hm _ (.inside hv .self))⟩

namespace Ruleset

/-- Extensions and nesting do not touch what makes declarations important. -/
theorem markedOnce_flatten {rules : List Node} (h : ∀ n ∈ rules, n.MarkedOnce silent) :
    ∀ n ∈ (ofRules rules).extend.flatten.rules, n.MarkedOnce silent := by
  have hextended : ∀ n ∈ (ofRules rules).extend.rules, n.MarkedOnce silent := by
    rw [extend, ofRules, mapSelectorsAll_eq_map, List.forall_mem_map]
    exact fun n hn => markedOnce_mapSelectors _ n (h n hn)
  rw [flatten_of_proper rfl fun n hn => ruleOf_proper (fun _ hv => hv) n (hextended n hn).rule]
  exact rulewise_markedOnce.unnestAll _ hextended

/-- **Declarations are important once**, in the result of any stylesheet that keeps to an allowance,
under any options. A declaration that is marked does not say `!important` in its value, and any
other one says it at most once. -/
theorem evaluate_marksOnce {source : String} {sheet result : Ruleset} (A : Allowance) (o : Options)
    (hread : ofText source = .ok sheet) (hkeeps : sheet.toNode.Throughout fun n => n.keepsTo A)
    (h : sheet.evaluate (.ofOptions o) = .ok result) {name : String} {value : Node}
    {important isVariable : Bool} {offset : Nat}
    (hoccurs : (declaration name value important isVariable offset).OccursIn result.toNode) :
    if important then ¬(keyword "!important").OccursIn value else value.marks 0 ≤ 1 := by
  obtain ⟨rules, rfl, hrules⟩ := meets_ofText Reading.readsValues_isValue (fun _ _ => trivial) hread
  have hmeets : ∀ n ∈ rules, n.Meets (thrifty A false) :=
    fun n hn => (hrules n hn).thrifty (hkeeps.part hn)
  obtain ⟨evaluated, heval, hresult⟩ := exists_of_bind_eq_ok h
  obtain ⟨results, hresults, hevaluated⟩ := exists_of_bind_eq_ok heval
  cases hevaluated
  cases hresult
  have honce : ∀ n ∈ results, n.MarkedOnce false :=
    evalSplice_markedOnce (Deeper.within_marksOnce _) _ rules
      ((Context.KeepsTo.ofOptions o).inFrame hmeets) hmeets results hresults
  cases hoccurs with
  | inside hrule hoccurs =>
    obtain ⟨hvalue, hmarks, -⟩ := (markedOnce_flatten honce _ hrule).carries _ hoccurs
    split
    · next himportant =>
      rw [if_pos himportant] at hmarks
      have hnone : value.marks 0 ≤ 0 :=
        (ENat.add_le_add_iff_right ENat.one_ne_top).mp (hmarks.trans_eq (zero_add 1).symm)
      exact hvalue.marks_eq_zero_iff.mp (le_zero_iff.mp hnone)
    · next hplain =>
      rwa [if_neg hplain, add_zero] at hmarks

/-- A variable that says `!important` as an argument and in a property, and another mixin that is
called with it. -/
theorem evaluate_marksOnce_mixin : ∃ sheet result,
    ofText
      "@a:b !important;.m(@x)\x7bc:@x\x7d.k()\x7bd:f\x7d.n\x7b.m(@a);e:@a;.k() !important\x7d" =
        .ok sheet ∧
    sheet.evaluate (.ofOptions {}) = .ok result ∧
    (Css.stylesheet ⟨none, false, true⟩ true result.rules).toOption =
      some ".n\x7bc:b !important;e:b !important;d:f!important\x7d" ∧
    ∀ (name : String) (value : Node) (important isVariable : Bool) (offset : Nat),
      (declaration name value important isVariable offset).OccursIn result.toNode →
        if important then ¬(keyword "!important").OccursIn value else value.marks 0 ≤ 1 := by
  obtain ⟨sheet, result, hread, hresult, htest⟩ := exists_evaluated
    "@a:b !important;.m(@x)\x7bc:@x\x7d.k()\x7bd:f\x7d.n\x7b.m(@a);e:@a;.k() !important\x7d"
      (.ofOptions {})
    (fun sheet result => decide (sheet.toNode.Throughout fun n =>
        n.keepsTo ⟨fun x => if x = "@arguments" then ⊤ else 1, 1, [".k"], .inr rfl⟩) &&
      (Css.stylesheet ⟨none, false, true⟩ true result.rules).toOption ==
        some ".n\x7bc:b !important;e:b !important;d:f!important\x7d")
    (by decide +kernel)
  obtain ⟨hkeeps, hwritten⟩ := Bool.and_eq_true_iff.mp htest
  refine ⟨sheet, result, hread, hresult, beq_iff_eq.mp hwritten, fun _ _ _ _ _ hoccurs => ?_⟩
  exact evaluate_marksOnce _ {} hread (of_decide_eq_true hkeeps) hresult hoccurs

end Ruleset

/-- Whether a declaration is marked as important and its value says so as well. -/
def Node.isMarkedTwice : Node → Bool
  | declaration _ value important _ _ => important && value.marks 0 != 0
  | _ => false

/-- **A variable that says `!important` in a declaration that is marked** makes it important twice,
and so it is written. -/
theorem Ruleset.evaluate_marksTwice : ∃ sheet result,
    ofText "@x: red !important; .a \x7b b: @x !important; \x7d" = .ok sheet ∧
    sheet.evaluate (.ofOptions {}) = .ok result ∧
    (∃ d : Node, d.OccursIn result.toNode ∧ d.isMarkedTwice) ∧
    (Css.stylesheet ⟨none, false, false⟩ false result.rules).toOption =
      some ".a \x7b\n  b: red !important !important;\n\x7d" := by
  obtain ⟨sheet, result, hread, hresult, htest⟩ := exists_evaluated
    "@x: red !important; .a \x7b b: @x !important; \x7d" (.ofOptions {})
    (fun _ result => (result.rules.any fun n => n.block.any isMarkedTwice) &&
      (Css.stylesheet ⟨none, false, false⟩ false result.rules).toOption ==
        some ".a \x7b\n  b: red !important !important;\n\x7d")
    (by decide +kernel)
  obtain ⟨htwice, hwritten⟩ := Bool.and_eq_true_iff.mp htest
  obtain ⟨n, hn, hblock⟩ := List.any_eq_true.mp htwice
  obtain ⟨d, hd, hmarked⟩ := List.any_eq_true.mp hblock
  exact ⟨sheet, result, hread, hresult,
    ⟨d, .inside hn (.inside (n.block_subset_parts hd) .self), hmarked⟩, beq_iff_eq.mp hwritten⟩

end LessCss
