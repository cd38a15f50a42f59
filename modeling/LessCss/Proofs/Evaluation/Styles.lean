import LessCss.Proofs.Evaluation.Alike
import LessCss.Proofs.Nesting.ReadValues

/-!
# Where the style of the result matters to evaluation

The style says how values are written, and evaluation writes values in two places only: into the
holes of a text, and as the unit of a number (`Node.writes`).  In a stylesheet without such places
the style makes a difference only to sums, where units may be strict: two runs of evaluation in
different styles keep in step (`Ruleset.eval_styled`).  So whether the result is minified makes no
difference (`Ruleset.evaluate_minify`).  With a hole it does (`Ruleset.evaluate_minify_hole`).

A text without holes stays as it is, so that evaluation brings no holes into a value that had none.
-/

namespace LessCss

open Evaluation Context

/-! ## Texts without holes -/

namespace Text

/-- A text without holes is read as plain characters only. -/
theorem partsFrom_of_noHoles {offset : Nat} {cs : List Char}
    (h : ∀ name o, .hole name o ∉ partsFrom offset 0 cs) :
    partsFrom offset 0 cs = cs.map .plain := by
  induction cs generalizing offset with
  | nil => rfl
  | cons c cs ih =>
    unfold partsFrom at h ⊢
    dsimp only at h ⊢
    split at h
    · exact absurd List.mem_cons_self (h _ _)
    · rw [ih fun name o hmem => h name o (List.mem_cons_of_mem _ hmem), List.map_cons]

theorem join_chars (cs : List Char) : String.join (cs.map Char.toString) = String.ofList cs := by
  induction cs with
  | nil => rfl
  | cons c cs ih =>
    rw [List.map_cons, String.join_cons, ih, String.ofList_cons, Char.toString_eq_singleton]

end Text

namespace Evaluation

variable {d : Deeper} {c : Context}

/-- A text without holes stays as it is. -/
theorem fill_of_noHoles {text : String} (h : Text.asked text = []) : fill d c text = .ok text := by
  have hparts : Text.parts text = text.toList.map .plain := by
    refine Text.partsFrom_of_noHoles fun name o hmem => ?_
    have hasked : "@" ++ String.ofList name ∈ Text.asked text :=
      List.mem_filterMap.mpr ⟨_, hmem, rfl⟩
    rw [h] at hasked
    cases hasked
  have hfilled : (text.toList.map .plain).mapM (fillPart d c) =
      .ok (text.toList.map Char.toString) := by
    rw [List.mapM_map]
    exact List.mapM_pure
  unfold fill
  rw [hparts, hfilled]
  exact congrArg Except.ok ((Text.join_chars _).trans String.ofList_toList)

/-- Elements without holes are left as they are. -/
theorem fillElements_of_noHoles {es : List Element}
    (h : es.flatMap (fun e => Text.asked e.text) = []) :
    fillElements d c es = .ok es := by
  induction es with
  | nil => rfl
  | cons e es ih =>
    obtain ⟨he, hes⟩ := List.append_eq_nil_iff.mp h
    unfold fillElements at ih ⊢
    rw [List.mapM_cons, fill_of_noHoles he, ih hes]
    rfl

mutual
theorem fillSelector_of_noHoles : ∀ s : Selector, s.asked = [] → fillSelector d c s = .ok s
  | .mk elements extending, h => by
    obtain ⟨helements, htargets⟩ := List.append_eq_nil_iff.mp h
    unfold fillSelector
    rw [fillElements_of_noHoles helements, fillTargets_of_noHoles extending htargets]
    rfl
theorem fillTargets_of_noHoles :
    ∀ targets : List (Selector × Bool), Selector.askedTargets targets = [] →
    fillTargets d c targets = .ok targets
  | [], _ => rfl
  | (target, all) :: rest, h => by
    obtain ⟨htarget, hrest⟩ := List.append_eq_nil_iff.mp h
    unfold fillTargets
    rw [fillSelector_of_noHoles target htarget, fillTargets_of_noHoles rest hrest]
    rfl
end

theorem fillSelectors_of_noHoles {selectors : List Selector}
    (h : selectors.flatMap Selector.asked = []) :
    selectors.mapM (fillSelector d c) = .ok selectors := by
  induction selectors with
  | nil => rfl
  | cons s selectors ih =>
    obtain ⟨hs, hselectors⟩ := List.append_eq_nil_iff.mp h
    rw [List.mapM_cons, fillSelector_of_noHoles s hs, ih hselectors]
    rfl

end Evaluation

/-! ## Values that write nothing -/

/-- A value in which the text of no value is written. -/
def Node.Quiet : Node → Prop := IsValueOf fun m => m.writes = false

namespace Node

theorem quiet_row {values : List Node} (h : ∀ v ∈ values, v.Quiet) : (row values).Quiet :=
  isValueOf_iff.mpr ⟨rfl, rfl, h⟩

end Node

/-- No value of a stylesheet writes a text, and no rule does. -/
def quiet : Standard where
  rule n := n.writes = false
  property := Node.Quiet
  definition _ := Node.Quiet
  parameter _ := True
  argument := Node.Quiet
  bound _ h := h
  all := Node.quiet_row

/-- Definitions that write nothing are evaluated to values that write nothing. -/
def Deeper.Quiet (d : Deeper) : Prop :=
  ∀ c n, c.Meets quiet → n.Quiet → Ensures (d.node c n) Node.Quiet

namespace Evaluation

variable {d : Deeper}

/-- That no value writes a text is kept by all that evaluation makes of values. -/
theorem kept_quiet : Kept fun n => n.writes = false where
  dimension _ := rfl
  expression _ _ _ _ := rfl
  list _ := rfl
  paren _ := rfl
  negative _ := rfl
  quoted {d c quote text filled escaped} hfilled h := by
    have htext : Text.asked text = [] := by simpa [Node.writes, Node.asked] using h
    rw [fill_of_noHoles htext] at hfilled
    cases hfilled
    exact h
  url {d c text filled} hfilled h := by
    have htext : Text.asked text = [] := by simpa [Node.writes, Node.asked] using h
    rw [fill_of_noHoles htext] at hfilled
    cases hfilled
    exact h
  operation _ := rfl
  call h := h

/-- Evaluation keeps values quiet where all definitions are. -/
theorem keeping_quiet (hd : d.Quiet) :
    Keeping (fun n => n.writes = false) (fun _ => True) (Context.Meets quiet) d where
  nodes := kept_quiet
  errors := .any
  scopes := ⟨Context.Meets.of_frames, Context.Meets.definition⟩
  deeper c n hc hn := ⟨hd c n hc hn, fun _ _ => trivial⟩

/-- **A value that writes nothing is evaluated to such a value.** -/
theorem eval_quiet (hd : d.Quiet) (c : Context) (n : Node) (hc : c.Meets quiet) (hn : n.Quiet) :
    Ensures (eval d c n) (IsOne Node.Quiet) :=
  (eval_kept (keeping_quiet hd) c n hc hn).value

/-- The arguments of a call are evaluated as the values in them. -/
theorem evalArguments_quiet (hd : d.Quiet) {c : Context} (hc : c.Meets quiet) : ∀ args : List Node,
    (∀ a ∈ args, ∃ name value, a = Node.argument name value ∧ value.Quiet) →
    Ensures (evalEach d c args) fun vs => ∀ v ∈ vs, v.Quiet :=
  evalArguments_ensures fun v hv y hy => (eval_quiet hd c v hc hv y hy).toNode

end Evaluation

/-- At any depth, quiet values are evaluated to quiet values. -/
theorem Deeper.within_quiet : ∀ k, (Deeper.within k).Quiet
  | 0 => fun _ _ _ _ => .error
  | k + 1 =>
    fun c n hc hn => .bind (eval_quiet (within_quiet k) c n hc hn) fun _ hy => .ok hy.toNode

/-! ## Another style -/

/-- The same place, where values are written in another style. -/
def Context.styled (c : Context) (style : Style) : Context := { c with style := style }

namespace Context

variable (c : Context) (style : Style)

@[simp] theorem styled_inFrame (f : Frame) :
    (c.styled style).inFrame f = (c.inFrame f).styled style := rfl

@[simp] theorem styled_underSelectors (selectors : List Selector) :
    (c.styled style).underSelectors selectors = (c.underSelectors selectors).styled style := rfl

@[simp] theorem selectors_styled : (c.styled style).selectors = c.selectors := rfl

@[simp] theorem mixin?_styled (name : String) : (c.styled style).mixin? name = c.mixin? name := rfl

/-- Going into an at-rule commutes with a change of the style. -/
theorem insideAtRule_styled (name : String) :
    insideAtRule (c.styled style) name = (insideAtRule c name).styled style := by
  unfold insideAtRule
  split
  · rfl
  · rfl

theorem style_insideAtRule (name : String) : (insideAtRule c name).style = c.style := by
  unfold insideAtRule
  split
  · rfl
  · rfl

end Context

section Lockstep

variable {R : (α : Type) → Except Error α → Except Error α → Prop} {S : Bool → Bool → Prop}

/-- A context in another style is akin to the context itself, for quiet values. -/
theorem Context.akin_styled {c : Context} (hc : c.Meets quiet) {style : Style}
    (hstrict : S style.strict c.style.strict) : Akin S Node.Quiet (c.styled style) c where
  math := rfl
  mathOn := rfl
  inCalc := rfl
  parens := rfl
  pending := rfl
  strict := hstrict
  style := .inr fun _ hn => hn.2.self
  definition _ _ _ _ := ⟨rfl, fun _ hv => hc.definition hv⟩

/-- Definitions that write nothing are evaluated in every style to related results. -/
structure Deeper.Unstyled (R : (α : Type) → Except Error α → Except Error α → Prop)
    (S : Bool → Bool → Prop) (d : Deeper) : Prop where
  quiet : d.Quiet
  node : AkinOn R S Node.Quiet d d
  rules : ∀ (c : Context) (rules : List Node) (style : Style), S style.strict c.style.strict →
    c.Meets LessCss.quiet → (∀ n ∈ rules, n.Meets LessCss.quiet) →
    R _ (d.rules (c.styled style) rules) (d.rules c rules)

namespace Evaluation

variable {d : Deeper}

theorem value_styled (hR : Lockstep R S) (hd : d.Unstyled R S) {c : Context} {n : Node}
    (hc : c.Meets quiet) (hn : n.Quiet) {style : Style} (hstrict : S style.strict c.style.strict) :
    R _ (eval d (c.styled style) n) (eval d c n) :=
  eval_akin hR (.isValueOf _) hd.node _ _ n (akin_styled hc hstrict) hn

theorem header_styled (hR : Lockstep R S) (hd : d.Unstyled R S) {c : Context} {header : Option Node}
    (hc : c.Meets quiet) (hn : ∀ n ∈ header, n.Quiet) {style : Style}
    (hstrict : S style.strict c.style.strict) :
    R _ (evalHeader d (c.styled style) header) (evalHeader d c header) := by
  cases header with
  | none => exact hR.steps.ok _
  | some n => exact hR.steps.map (value_styled hR hd hc (hn n rfl) hstrict) fun _ => .ok _

theorem arguments_styled (hR : Lockstep R S) (hd : d.Unstyled R S) {c : Context}
    (hc : c.Meets quiet) {style : Style} (hstrict : S style.strict c.style.strict) :
    ∀ args : List Node, (∀ a ∈ args, ∃ name value, a = Node.argument name value ∧ value.Quiet) →
    R _ (evalEach d (c.styled style) args) (evalEach d c args)
  | [], _ => hR.steps.ok _
  | arg :: args, h => by
    obtain ⟨harg, hargs⟩ := List.forall_mem_cons.mp h
    obtain ⟨name, value, rfl, hvalue⟩ := harg
    refine hR.steps.bind (value_styled hR hd hc hvalue hstrict) fun _ _ => ?_
    exact hR.steps.map (arguments_styled hR hd hc hstrict args hargs) fun _ => .ok _

/-- Whether a mixin can be entered does not depend on the style. -/
theorem inMixin_styled (c : Context) (name : String) (style : Style) :
    (c.styled style).inMixin name = (·.styled style) <$> c.inMixin name := by
  unfold Context.inMixin
  show (if c.mixinDepth ≥ mixinDepthLimit then _ else _) = _
  split
  · rfl
  · rfl

theorem style_inMixin {c inside : Context} {name : String} (h : c.inMixin name = .ok inside) :
    inside.style = c.style := by
  obtain ⟨-, rfl⟩ := Context.inMixin_eq_ok h
  rfl

/-- The rules of a mixin that is called. -/
theorem expand_styled (hR : Lockstep R S) (hd : d.Unstyled R S) {c : Context} {m : Mixin}
    {values : List Node} (name : String) (args : List Node) (important : Bool) (offset : Nat)
    (hc : c.Meets quiet) (hm : m.Meets quiet) (hvalues : ∀ v ∈ values, v.Quiet) {style : Style}
    (hstrict : S style.strict c.style.strict) :
    R _ (expand d (c.styled style) m name args values important offset)
      (expand d c m name args values important offset) := by
  have hframe := argumentFrame_fails m name offset ((args.map argumentName?).zip values)
  unfold expand
  refine hR.steps.bind (hR.steps.refl (.of_ordinary hframe)) fun frame hframe => ?_
  have hargs : ∀ v ∈ ((args.map argumentName?).zip values).map Prod.snd, v.Quiet := fun v hv =>
    hvalues v (mem_values_of_named hv)
  rw [inMixin_styled]
  cases hinside : c.inMixin name with
  | error e =>
    have hdeep := inMixin_fails c name e hinside
    exact hR.steps.refl (.error hdeep.finished)
  | ok inside =>
    have hmeets : (inside.inFrame frame).Meets quiet :=
      (hc.inMixin hinside).push (.ofArguments hframe hm hargs)
    have hstrict : S style.strict inside.style.strict := by
      rw [style_inMixin hinside]
      exact hstrict
    have hrules := hd.rules (inside.inFrame frame) m.rules style hstrict hmeets hm.rules
    exact hR.steps.map (x := d.rules ((inside.inFrame frame).styled style) m.rules) hrules
      fun _ => .ok _

mutual
/-- **A rule that writes nothing is evaluated in every style to related results.** -/
theorem eval_styled (hR : Lockstep R S) (hd : d.Unstyled R S) (style : Style) :
    ∀ (c : Context) (n : Node), S style.strict c.style.strict → c.Meets quiet → n.Meets quiet →
      R _ (eval d (c.styled style) n) (eval d c n)
  | _, .comment .., _, _, _ => hR.steps.ok _
  | _, .declaration _ _ _ true _, _, _, _ => hR.steps.ok _
  | c, .declaration name value _ false offset, hstrict, hc, h => by
    have hname : Text.asked name = [] := by simpa [quiet, Node.writes, Node.asked] using h.rule
    have hvalue : R _ (eval d (forProperty (c.styled style) name) value)
        (eval d (forProperty c name) value) :=
      eval_akin hR (.isValueOf _) hd.node _ _ value
        ((akin_styled hc hstrict).forProperty name) h.own
    simp only [eval, fill_of_noHoles hname]
    exact hR.steps.map (hR.steps.locate offset hvalue) fun _ => .ok _
  | c, .ruleset selectors rules root, hstrict, hc, h => by
    obtain ⟨rfl, -⟩ := h.own
    have hselectors : selectors.flatMap Selector.asked = [] := by
      simpa [quiet, Node.writes, Node.asked] using h.rule
    have hrules (joined : List Selector) :
        R _ (evalSplice d (((c.underSelectors joined).inFrame (.ofRules rules)).styled style) rules)
          (evalSplice d ((c.underSelectors joined).inFrame (.ofRules rules)) rules) :=
      evalSplice_styled hR hd style _ rules hstrict ((hc.inFrame h.ruleset).of_frames rfl) h.ruleset
    simp only [eval, ruleset, Bool.false_eq_true, if_false, fillSelectors_of_noHoles hselectors,
      styled_underSelectors, styled_inFrame, selectors_styled]
    exact hR.steps.map (hR.steps.map (hrules _) fun _ => .ok _) fun _ => .ok _
  | c, .atRule name header none, hstrict, hc, h =>
    hR.steps.map (header_styled hR hd hc h.own.1 hstrict) fun _ => .ok _
  | c, .atRule name header (some rules), hstrict, hc, h => by
    have hinside : ((insideAtRule c name).inFrame (.ofRules rules)).Meets quiet :=
      (hc.of_frames (sameScope_insideAtRule c name).frames).inFrame h.atRule
    have hstyle : S style.strict (insideAtRule c name).style.strict := by
      rw [style_insideAtRule]
      exact hstrict
    have hrules :
        R _ (evalSplice d (((insideAtRule c name).inFrame (.ofRules rules)).styled style) rules)
        (evalSplice d ((insideAtRule c name).inFrame (.ofRules rules)) rules) :=
      evalSplice_styled hR hd style _ rules hstyle hinside h.atRule
    simp only [eval, insideAtRule_styled, styled_inFrame, wrapAtRule, selectors_styled]
    refine hR.steps.bind (header_styled hR hd hc h.own.1 hstrict) fun _ _ => ?_
    exact hR.steps.map hrules fun _ => .ok _
  | c, .media features rules, hstrict, hc, h => by
    have hrules : R _ (evalSplice d ((c.inFrame (.ofRules rules)).styled style) rules)
        (evalSplice d (c.inFrame (.ofRules rules)) rules) :=
      evalSplice_styled hR hd style _ rules hstrict (hc.inFrame h.media) h.media
    simp only [eval, styled_inFrame, selectors_styled]
    refine hR.steps.bind (value_styled hR hd hc h.own.1 hstrict) fun _ _ => ?_
    exact hR.steps.map hrules fun _ => .ok _
  | c, .importRule path features options, hstrict, hc, h => by
    refine hR.steps.bind (value_styled hR hd hc h.own.1 hstrict) fun _ _ => ?_
    exact hR.steps.map (header_styled hR hd hc h.own.2 hstrict) fun _ => .ok _
  | _, .mixin .., _, _, _ => hR.steps.ok _
  | c, .mixinCall name args important offset, hstrict, hc, h => by
    simp only [eval, mixin?_styled]
    cases hm : c.mixin? name with
    | none => exact hR.steps.refl (.error nofun)
    | some m =>
      refine hR.steps.bind (arguments_styled hR hd hc hstrict args h.own) fun values hvalues => ?_
      have hstyled : (c.styled style).Meets quiet := hc.of_frames rfl
      have hquiet := evalArguments_quiet hd.quiet hstyled args h.own values hvalues
      have hexpand := expand_styled hR hd name args important offset hc (hc.mixin hm) hquiet hstrict
      exact hR.steps.map hexpand fun _ => .ok _
  | _, .dimension _, _, _, h | _, .expression .., _, _, h | _, .list _, _, _, h
  | _, .paren _, _, _, h
  | _, .keyword _, _, _, h | _, .quoted .., _, _, h | _, .url _, _, _, h | _, .reference .., _, _, h
  | _, .operation .., _, _, h | _, .negative _, _, _, h | _, .call .., _, _, h
  | _, .selector _, _, _, h
  | _, .argument .., _, _, h => nomatch h.isStatement
/-- Rules have related results in both styles, by induction on the nodes. -/
theorem evalSplice_styled (hR : Lockstep R S) (hd : d.Unstyled R S) (style : Style) :
    ∀ (c : Context) (nodes : List Node),
    S style.strict c.style.strict → c.Meets quiet → (∀ n ∈ nodes, n.Meets quiet) →
    R _ (evalSplice d (c.styled style) nodes) (evalSplice d c nodes)
  | _, [], _, _, _ => hR.steps.ok _
  | c, node :: nodes, hstrict, hc, h => by
    obtain ⟨hnode, hnodes⟩ := List.forall_mem_cons.mp h
    refine hR.steps.bind (eval_styled hR hd style c node hstrict hc hnode) fun _ _ => ?_
    exact hR.steps.map (evalSplice_styled hR hd style c nodes hstrict hc hnodes) fun _ => .ok _
end

end Evaluation

/-- At any depth, definitions that write nothing have related results in both styles. -/
theorem Deeper.within_unstyled (hR : Lockstep R S) : ∀ k, (Deeper.within k).Unstyled R S
  | 0 => ⟨within_quiet 0, within_akinOn hR (.isValueOf _) 0, fun _ _ _ _ _ _ => hR.unfinished⟩
  | k + 1 => by
    refine ⟨within_quiet (k + 1), within_akinOn hR (.isValueOf _) (k + 1), ?_⟩
    intro c rules style hstrict hc hrules
    exact evalSplice_styled hR (within_unstyled hR k) style (c.inFrame (.ofRules rules))
      rules hstrict
      (hc.inFrame hrules) hrules

/-! ## Stylesheets -/

/-- In every style a stylesheet that writes nothing is evaluated to related results. -/
theorem Ruleset.eval_styled (hR : Lockstep R S) {rules : List Node} (h : ∀ n ∈ rules, n.Meets quiet)
    {c : Context} (hc : c.Meets quiet) {style : Style} (hstrict : S style.strict c.style.strict) :
    R _ ((ofRules rules).eval (c.styled style)) ((ofRules rules).eval c) := by
  have hrules := evalSplice_styled hR (Deeper.within_unstyled hR (c.bound rules)) style
    (c.inFrame (.ofRules rules)) rules hstrict (hc.inFrame h) h
  exact hR.steps.map hrules fun _ => .ok _

end Lockstep

/-- What is read as a value is one. -/
theorem Reading.readsValues_isValue : Reading.ReadsValues (fun _ => True) Node.IsValue where
  child _ _ := trivial
  isValue h := h
  row h := Node.areValues_iff.mpr h
  keyword _ := trivial
  value _ _ := Reading.value_isValue _
  expression _ _ := Reading.expression_isValue _
  mediaList _ := Reading.mediaList_isValue _
  importPath _ := Reading.importPath?_isValue

/-- Where only values stand in the places of values and nothing writes a text, no value does. -/
theorem Node.Meets.quiet {n : Node} (h : n.Meets Reading.readsValues_isValue.standard)
    (hquiet : n.Throughout fun m => m.writes = false) : n.Meets LessCss.quiet := by
  refine ⟨h.isStatement, fun m hm => ⟨hquiet m hm, ?_⟩⟩
  have hinside := hquiet.of_occursIn hm
  refine (h.suits m hm).2.mono ?_ ?_ ?_ ?_
  · intro v hv hvalue
    exact ⟨hvalue, hinside.part hv⟩
  · rintro name value important offset rfl hvalue
    exact ⟨hvalue, hinside.part List.mem_cons_self⟩
  · rintro name params guard rules rfl p hp
    refine ⟨fun _ _ => trivial, fun v hv hvalue => ⟨hvalue, hinside.part ?_⟩⟩
    exact List.mem_append_left _ (List.mem_filterMap.mpr ⟨p, hp, hv⟩)
  · intro name v hv hvalue
    exact ⟨hvalue, (hinside.part hv).part List.mem_cons_self⟩

namespace Ruleset

/-- **Whether the result is minified makes no difference to evaluation** where the text of no value
is written in the course of it: for every such source, under any options, there is the same
stylesheet or the same error. -/
theorem evaluate_minify {source : String}
    (hquiet : ∀ r, ofText source = .ok r → r.toNode.Throughout fun n => n.writes = false)
    (o : Options) (minify : Bool) :
    (do (← ofText source).evaluate (.ofOptions { o with minify := minify })) =
      (do (← ofText source).evaluate (.ofOptions o)) := by
  cases hread : ofText source with
  | error e => rfl
  | ok r =>
    obtain ⟨rules, rfl, hrules⟩ :=
      meets_ofText Reading.readsValues_isValue (fun _ _ => trivial) hread
    have hmeets : ∀ n ∈ rules, n.Meets quiet :=
      fun n hn => (hrules n hn).quiet ((hquiet _ hread).part hn)
    have heval : (ofRules rules).eval ((ofOptions o).styled { o.style with compress := minify }) =
        (ofRules rules).eval (ofOptions o) := eval_styled .eq hmeets (.ofOptions o) rfl
    show (do
      let evaluated ← (ofRules rules).eval
          ((ofOptions o).styled { o.style with compress := minify })
      return evaluated.extend.flatten) = _
    rw [heval]
    rfl

/-- A list that is passed to a mixin: minified or not, the same stylesheet results. -/
theorem evaluate_minify_mixin :
    (do
        (← ofText "@x:a,b;.m(@n)\x7bw:@n\x7d.c\x7b.m(@x)\x7d").evaluate
          (.ofOptions { minify := true })) =
      (do (← ofText "@x:a,b;.m(@n)\x7bw:@n\x7d.c\x7b.m(@x)\x7d").evaluate (.ofOptions {})) := by
  have hcheck : (match ofText "@x:a,b;.m(@n)\x7bw:@n\x7d.c\x7b.m(@x)\x7d" with
    | .ok r => decide (r.toNode.Throughout fun n => n.writes = false)
    | .error _ => false) = true := by decide +kernel
  refine evaluate_minify (fun r hr => ?_) {} true
  rw [hr] at hcheck
  exact of_decide_eq_true hcheck

/-- **A list in a hole has another text if the result is minified**, though the two stylesheets are
written in the same style. -/
theorem evaluate_minify_hole :
    let evaluated (minify : Bool) := do
      (← ofText "@x:a,b;.c\x7bw:\"@\x7bx\x7d\"\x7d").evaluate (.ofOptions { minify := minify })
    (evaluated false >>= fun r => Css.stylesheet ⟨none, false, true⟩ true r.rules).toOption =
        some ".c\x7bw:\"a, b\"\x7d" ∧
      (evaluated true >>= fun r => Css.stylesheet ⟨none, false, true⟩ true r.rules).toOption =
        some ".c\x7bw:\"a,b\"\x7d" := by
  decide +kernel

end Ruleset

end LessCss
