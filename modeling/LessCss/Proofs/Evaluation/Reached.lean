import LessCss.Proofs.Evaluation.Styles

/-!
# What evaluation comes to

Whatever evaluation comes to in a stylesheet that was read from text stands in its place: it is a
statement, a value, or an argument with a value in it, and only values are in the places of values
throughout it and in all scopes around (`Config.Stands`).  This holds of the stylesheet itself, and
every step of evaluation keeps it. Hence all variables in scope are defined by values, wherever
evaluation comes to (`Ruleset.valued_of_reaches`).
-/

namespace LessCss

open Evaluation

/-- Only values stand in the places of values. -/
def valued : Standard := Reading.readsValues_isValue.standard

theorem Context.Meets.valued {c : Context} (h : c.Meets valued) : c.Valued :=
  fun f hf x hx => (h f hf).values x hx

namespace Node

/-- A node that evaluation can come to: a whole stylesheet, a statement, a value, or an argument. -/
inductive Stands : Node → Prop
  | sheet {selectors rules} (h : ∀ n ∈ rules, n.Meets valued) :
  Stands (ruleset selectors rules true)
  | statement {n} (h : n.Meets valued) : Stands n
  | value {n} (h : n.IsValue) : Stands n
  | argument {name value} (h : value.IsValue) : Stands (argument name value)

theorem IsValue.not_isStatement {n : Node} (h : n.IsValue) : n.isStatement = false := by
  cases n with
  | dimension | expression | list | paren | keyword | quoted | url | reference | operation
  | negative
  | call => rfl
  | comment | declaration | selector | ruleset | atRule | media | importRule | mixin | mixinCall
  | argument => exact h.elim

namespace Stands

variable {n : Node}

/-- A node of a sort that values are of is a value. -/
theorem isValue (h : n.Stands) (hsort : n.isValueSort) : n.IsValue := by
  cases h with
  | sheet | argument => cases hsort
  | value h => exact h
  | statement h =>
    have hstatement := h.isStatement
    cases n with
    | dimension | expression | list | paren | keyword | quoted | url | reference | operation
    | negative
    | call => cases hstatement
    | comment | declaration | selector | ruleset | atRule | media | importRule | mixin | mixinCall
    | argument => cases hsort

/-- A statement is as required, unless it is a whole stylesheet. -/
theorem meets (h : n.Stands) (hn : n.isStatement)
    (hroot : ∀ selectors rules, n ≠ ruleset selectors rules true) :
    n.Meets valued := by
  cases h with
  | sheet h => exact absurd rfl (hroot _ _)
  | statement h => exact h
  | value h =>
    rw [h.not_isStatement] at hn
    cases hn
  | argument => cases hn

theorem sheetRules {selectors : List Selector} {rules : List Node}
    (h : (ruleset selectors rules true).Stands) :
    ∀ n ∈ rules, n.Meets valued := by
  cases h with
  | sheet h => exact h
  | statement h => cases h.own.1
  | value h => exact h.elim

theorem argumentValue {name : Option String} {value : Node}
    (h : (Node.argument name value).Stands) :
    value.IsValue := by
  cases h with
  | statement h => cases h.isStatement
  | value h => exact h.elim
  | argument h => exact h

end Stands

end Node

namespace Config

/-- A node that evaluation can come to, in scopes in which only values stand in the places of
values. -/
structure Stands (s : Config) : Prop where
  context : s.context.Meets valued
  node : s.node.Stands

variable {d : Deeper} {s t : Config}

/-- What is inside of something that stands in a stylesheet does so too. -/
theorem Inside.stands (h : Inside d s t) (hs : s.Stands) : t.Stands := by
  obtain ⟨hc, hn⟩ := hs
  cases h with
  | item h =>
    exact ⟨hc.of_frames (sameScope_insideRow _ _ _).frames, .value ((hn.isValue rfl).parts _ h)⟩
  | listItem h => exact ⟨hc, .value ((hn.isValue rfl).parts _ h)⟩
  | callArgument h => exact ⟨hc.of_frames rfl, .value ((hn.isValue rfl).parts _ h)⟩
  | paren | left | negative => exact ⟨hc, .value ((hn.isValue rfl).parts _ List.mem_cons_self)⟩
  | right => exact ⟨hc, .value (hn.isValue rfl).2⟩
  | value =>
    exact ⟨hc.of_frames (sameScope_forProperty _ _).frames, .value (hn.meets rfl nofun).own⟩
  | sheetRule h => exact ⟨hc.inFrame hn.sheetRules, .statement (hn.sheetRules _ h)⟩
  | rulesetRule _ h =>
    have hrules := (hn.meets rfl nofun).ruleset
    exact ⟨(hc.of_frames rfl).inFrame hrules, .statement (hrules _ h)⟩
  | atRuleRule h =>
    have hrules := (hn.meets rfl nofun).atRule
    exact ⟨(hc.of_frames (sameScope_insideAtRule _ _).frames).inFrame hrules,
      .statement (hrules _ h)⟩
  | mediaRule h =>
    have hrules := (hn.meets rfl nofun).media
    exact ⟨hc.inFrame hrules, .statement (hrules _ h)⟩
  | header => exact ⟨hc, .value ((hn.meets rfl nofun).own.1 _ rfl)⟩
  | features | path => exact ⟨hc, .value (hn.meets rfl nofun).own.1⟩
  | importFeatures => exact ⟨hc, .value ((hn.meets rfl nofun).own.2 _ rfl)⟩
  | argument h =>
    obtain ⟨name, value, rfl, hvalue⟩ := (hn.meets rfl nofun).own _ h
    exact ⟨hc, .argument hvalue⟩
  | argumentValue => exact ⟨hc, .value hn.argumentValue⟩

/-- What a variable stands for stands in a stylesheet, if what asks for it does. -/
theorem Asks.stands (h : Asks s t) (hs : s.Stands) : t.Stands := by
  obtain ⟨name, -, -, hc, f, hf, hmem⟩ := h.cases
  exact ⟨hs.context.of_frames (by rw [hc]), .value ((hs.context f hf).values _ hmem)⟩

/-- What a call expands to stands in a stylesheet, if the call does. -/
theorem Expands.stands (hd : d.Valued) {c : Context} {rules : List Node} {rule : Node}
    (h : Expands d s c rules) (hrule : rule ∈ rules) (hs : s.Stands) :
    (Config.mk (c.inFrame (.ofRules rules)) rule).Stands := by
  obtain ⟨hc, hn⟩ := hs
  cases h with
  | @rules c name args important offset m values frame inside found evaluated bound enter =>
    have hm : m.Meets valued := hc.mixin found
    have hvalues : ∀ v ∈ values, v.IsValue :=
      evalArguments_ensures (fun v hv y hy => (eval_value hd c v hc.valued hv y hy).toNode) args
        (hn.meets rfl nofun).own values evaluated
    have hargs : ∀ v ∈ ((args.map argumentName?).zip values).map Prod.snd, v.IsValue := fun v hv =>
      hvalues v (mem_values_of_named hv)
    have hinside := (hc.inMixin enter).push (.ofArguments bound hm hargs)
    exact ⟨hinside.inFrame hm.rules, .statement (hm.rules _ hrule)⟩

/-- **Evaluation comes only to nodes that stand in their places.** -/
theorem Enters.stands (hd : d.Valued) (h : Enters d s t) (hs : s.Stands) : t.Stands := by
  cases h with
  | inside h => exact h.stands hs
  | definition h => exact h.stands hs
  | rule h hrule => exact h.stands hd hrule hs

/-- Whatever evaluation comes to stands in a stylesheet, by induction on the steps to it. -/
theorem Reaches.stands (hd : d.Valued) (h : s.Reaches d t) (hs : s.Stands) : t.Stands := by
  induction h with
  | refl => exact hs
  | tail _ hstep ih => exact hstep.stands hd ih

end Config

/-- **All variables are defined by values**, wherever evaluation comes to in a stylesheet that was
read. -/
theorem Ruleset.valued_of_reaches {source : String} {r : Ruleset} (hread : ofText source = .ok r)
    {o : Options} {s : Config} (h : Config.Reaches .unbounded ⟨.ofOptions o, r.toNode⟩ s) :
    s.context.Valued := by
  obtain ⟨rules, rfl, hrules⟩ := meets_ofText Reading.readsValues_isValue (fun _ _ => trivial) hread
  have hstart : (Config.mk (.ofOptions o) (ofRules rules).toNode).Stands :=
    ⟨.ofOptions o, .sheet hrules⟩
  exact (h.stands Deeper.unbounded_valued hstart).context.valued

end LessCss
