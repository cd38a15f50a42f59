import LessCss.Proofs.Nesting.Evaluated

/-!
# Standards that a stylesheet meets

A claim about what becomes of values in the course of evaluation needs to know which values can turn
up: in properties and in the heads of rules, in definitions, and as arguments of mixins.  A
*standard* says what is required of the values in each of these places.  A rule meets it if this
holds of all rules in it, those of mixins included; a context meets it if all definitions in scope
do.

The scopes that evaluation opens meet the standard if the rules do: that of rules
(`Context.Meets.inFrame`), and that of the parameters of a mixin (`Context.Meets.inArguments`),
because arguments may be bound to parameters.
-/

namespace LessCss

open Evaluation

/-- What is required of each rule by itself, of the values of properties and in the heads of rules,
of the definitions of variables, of the names of parameters, and of arguments and defaults. -/
structure Standard where
  rule : Node → Prop
  property : Node → Prop
  definition : String → Node → Prop
  parameter : String → Prop
  argument : Node → Prop
  bound {x : String} {v : Node} : parameter x → argument v → definition x v
  all {values : List Node} : (∀ v ∈ values, argument v) → definition "@arguments" (.row values)

/-- The standard that requires the same of all values. -/
def Standard.ofValues (V : Node → Prop)
    (row : ∀ {values : List Node}, (∀ v ∈ values, V v) → V (.row values)) :
    Standard where
  rule _ := True
  property := V
  definition _ := V
  parameter _ := True
  argument := V
  bound _ h := h
  all := row

namespace Node

/-- Whether a node can stand in a block. -/
def isStatement : Node → Bool
  | declaration .. | comment .. | ruleset .. | atRule .. | media .. | importRule .. | mixin ..
  | mixinCall .. => true
  | dimension _ | expression .. | list _ | paren _ | keyword _ | quoted .. | url _ | reference ..
  | operation .. | negative _ | call .. | selector _ | argument .. => false

/-- The values of a node are as required for their places, and statements stand in its block. -/
def Suits (s : Standard) : Node → Prop
  | declaration name value _ true _ => s.definition name value
  | declaration _ value _ false _ => s.property value
  | ruleset _ rules root => root = false ∧ ∀ n ∈ rules, n.isStatement
  | atRule _ header rules => (∀ n ∈ header, s.property n) ∧ ∀ n ∈ rules.getD [], n.isStatement
  | media features rules => s.property features ∧ ∀ n ∈ rules, n.isStatement
  | importRule path features _ => s.property path ∧ ∀ n ∈ features, s.property n
  | mixin _ params _ rules =>
    (∀ p ∈ params, (∀ x ∈ p.1, s.parameter x) ∧ ∀ v ∈ p.2, s.argument v) ∧ ∀ n ∈ rules,
      n.isStatement
  | mixinCall _ args _ _ => ∀ a ∈ args, ∃ name value, a = argument name value ∧ s.argument value
  | _ => True

/-- A statement in which every rule meets a standard. -/
structure Meets (s : Standard) (n : Node) : Prop where
  isStatement : n.isStatement
  suits : n.Throughout fun m => s.rule m ∧ m.Suits s

variable {s : Standard}

/-- A value suits any standard, since standards are for statements and definitions. -/
theorem IsValue.suits {n : Node} (h : n.IsValue) : n.Suits s := by
  cases n with
  | dimension | expression | list | paren | keyword | quoted | url | reference | operation
  | negative
  | call => trivial
  | comment | declaration | selector | ruleset | atRule | media | importRule | mixin | mixinCall
  | argument => exact h.elim

/-- From one standard to another, place by place. -/
theorem Suits.mono {t : Standard} {n : Node} (h : n.Suits s)
    (hproperty : ∀ v ∈ n.parts, s.property v → t.property v)
    (hdefinition : ∀ {name value important offset},
      n = declaration name value important true offset →
      s.definition name value → t.definition name value)
    (hmixin : ∀ {name params guard rules}, n = mixin name params guard rules → ∀ p ∈ params,
      (∀ x ∈ p.1, t.parameter x) ∧ ∀ v ∈ p.2, s.argument v → t.argument v)
    (hargument : ∀ {name v}, argument name v ∈ n.parts → s.argument v → t.argument v) :
    n.Suits t := by
  cases n with
  | declaration name value important isVariable offset =>
    cases isVariable with
    | true => exact hdefinition rfl h
    | false => exact hproperty value List.mem_cons_self h
  | ruleset selectors rules root => exact h
  | atRule name header rules =>
    refine ⟨fun v hv => hproperty v ?_ (h.1 v hv), h.2⟩
    exact List.mem_append_left _ (Option.mem_toList.mpr hv)
  | media features rules => exact ⟨hproperty features List.mem_cons_self h.1, h.2⟩
  | importRule path features options =>
    refine ⟨hproperty path List.mem_cons_self h.1, fun v hv => hproperty v ?_ (h.2 v hv)⟩
    exact List.mem_cons_of_mem _ (Option.mem_toList.mpr hv)
  | mixin name params guard rules =>
    refine ⟨fun p hp => ?_, h.2⟩
    obtain ⟨hnames, hdefaults⟩ := hmixin rfl p hp
    exact ⟨hnames, fun v hv => hdefaults v hv ((h.1 p hp).2 v hv)⟩
  | mixinCall name args important offset =>
    intro a ha
    obtain ⟨name, value, rfl, hvalue⟩ := h a ha
    exact ⟨name, value, rfl, hargument ha hvalue⟩
  | dimension | expression | list | paren | comment | keyword | quoted | url | reference
  | operation | negative
  | call | selector | argument => trivial

namespace Meets

/-- A node that meets a standard has rules as the standard asks for them. -/
theorem rule {n : Node} (h : n.Meets s) : s.rule n := h.suits.self.1

/-- A node that meets a standard suits it. -/
theorem own {n : Node} (h : n.Meets s) : n.Suits s := h.suits.self.2

/-- The rules of a rule set that meets a standard meet it. -/
theorem ruleset {selectors : List Selector} {rules : List Node} {root : Bool}
    (h : (Node.ruleset selectors rules root).Meets s) : ∀ n ∈ rules, n.Meets s := fun n hn =>
  ⟨h.own.2 n hn, h.suits.part hn⟩

theorem atRule {name : String} {header : Option Node} {rules : List Node}
    (h : (Node.atRule name header (some rules)).Meets s) : ∀ n ∈ rules, n.Meets s := fun n hn =>
  ⟨h.own.2 n hn, h.suits.part (List.mem_append_right _ hn)⟩

theorem media {features : Node} {rules : List Node} (h : (Node.media features rules).Meets s) :
    ∀ n ∈ rules, n.Meets s := fun n hn =>
  ⟨h.own.2 n hn, h.suits.part (List.mem_cons_of_mem _ hn)⟩

theorem mixin {m : Mixin} (h : m.toNode.Meets s) : ∀ n ∈ m.rules, n.Meets s := fun n hn =>
  ⟨h.own.2 n hn, h.suits.part (List.mem_append_right _ hn)⟩

section Values

variable {V : Node → Prop} {row : ∀ {values : List Node}, (∀ v ∈ values, V v) → V (.row values)}
  {n : Node}

/-- A part of a statement that meets a standard for values is a value of the standard, an argument
with such a value, or a statement in the block of it that meets the standard too. -/
theorem part_cases (h : n.Meets (.ofValues V row)) {part : Node} (hpart : part ∈ n.parts) :
    V part ∨ (∃ name value, part = .argument name value ∧ V value) ∨
      part ∈ n.block ∧ part.Meets (.ofValues V row) := by
  have hown := h.own
  have hstatement := h.isStatement
  have hmeets (hrule : part.isStatement) : part.Meets (.ofValues V row) :=
    ⟨hrule, h.suits.part hpart⟩
  cases n with
  | declaration name value important isVariable offset =>
    obtain rfl := List.mem_singleton.mp hpart
    cases isVariable with
    | true => exact .inl hown
    | false => exact .inl hown
  | ruleset selectors rules root => exact .inr (.inr ⟨hpart, hmeets (hown.2 _ hpart)⟩)
  | atRule name header rules =>
    rcases List.mem_append.mp hpart with hheader | hrule
    · exact .inl (hown.1 _ (Option.mem_toList.mp hheader))
    · exact .inr (.inr ⟨hrule, hmeets (hown.2 _ hrule)⟩)
  | media features rules =>
    rcases List.mem_cons.mp hpart with rfl | hrule
    · exact .inl hown.1
    · exact .inr (.inr ⟨hrule, hmeets (hown.2 _ hrule)⟩)
  | importRule path features options =>
    rcases List.mem_cons.mp hpart with rfl | hfeatures
    · exact .inl hown.1
    · exact .inl (hown.2 _ (Option.mem_toList.mp hfeatures))
  | mixin name params guard rules =>
    rcases List.mem_append.mp hpart with hdefault | hrule
    · obtain ⟨p, hp, hdefault⟩ := List.mem_filterMap.mp hdefault
      exact .inl ((hown.1 p hp).2 _ hdefault)
    · exact .inr (.inr ⟨hrule, hmeets (hown.2 _ hrule)⟩)
  | mixinCall name args important offset => exact .inr (.inl (hown _ hpart))
  | comment text isLine => cases hpart
  | dimension | expression | list | paren | keyword | quoted | url | reference | operation
  | negative | call | selector
  | argument => cases hstatement

/-- What holds of all rules in a statement, of arguments, and throughout all values holds throughout
the statement. -/
theorem throughout {P : Node → Prop} (h : n.Meets (.ofValues V row))
    (hrule : ∀ m : Node, m.LiesIn n → P m) (hargument : ∀ name value, P (.argument name value))
    (hvalue : ∀ v, V v → v.Throughout P) : n.Throughout P := by
  induction n using induction_parts with
  | step n ih =>
    refine throughout_iff.mpr ⟨hrule n .self, fun part hpart => ?_⟩
    rcases h.part_cases hpart with hv | ⟨name, value, rfl, hv⟩ | ⟨hblock, hmeets⟩
    · exact hvalue part hv
    · exact throughout_iff.mpr
        ⟨hargument name value, List.forall_mem_singleton.mpr (hvalue value hv)⟩
    · exact ih part hpart hmeets fun m hm => hrule m (.block hblock hm)

end Values

end Meets

end Node

/-- What holds of the evaluated values in arguments holds of the evaluated arguments. -/
theorem Evaluation.evalArguments_ensures {d : Deeper} {c : Context} {P Q : Node → Prop}
    (h : ∀ v, P v → Ensures (eval d c v) fun y => Q y.toNode) : ∀ args : List Node,
    (∀ a ∈ args, ∃ name value, a = Node.argument name value ∧ P value) →
    Ensures (evalEach d c args) fun vs => ∀ v ∈ vs, Q v
  | [], _ => .ok (List.forall_mem_nil _)
  | arg :: args, hargs => by
    obtain ⟨⟨name, value, rfl, hvalue⟩, hrest⟩ := List.forall_mem_cons.mp hargs
    refine .bind (h value hvalue) fun y hy => ?_
    refine .bind (evalArguments_ensures h args hrest) fun vs hvs => ?_
    exact .ok (List.forall_mem_cons.mpr ⟨hy, hvs⟩)

/-! ## Scopes -/

/-- A mixin whose parameters and rules meet a standard. -/
structure Mixin.Meets (s : Standard) (m : Mixin) : Prop where
  names : ∀ p ∈ m.params, ∀ x ∈ p.1, s.parameter x
  defaults : ∀ p ∈ m.params, ∀ v ∈ p.2, s.argument v
  rules : ∀ n ∈ m.rules, n.Meets s

/-- A scope whose definitions meet a standard. -/
structure Frame.Meets (s : Standard) (f : Frame) : Prop where
  values : ∀ x ∈ f.values, s.definition x.1 x.2
  mixins : ∀ x ∈ f.mixins, x.2.Meets s

/-- A context in which all definitions in scope meet a standard. -/
def Context.Meets (s : Standard) (c : Context) : Prop := ∀ f ∈ c.frames, f.Meets s

variable {s : Standard}

/-- The scope of rules that meet a standard meets it. -/
theorem Frame.Meets.ofRules {rules : List Node} (h : ∀ n ∈ rules, n.Meets s) :
    (Frame.ofRules rules).Meets s where
  values x hx := by
    obtain ⟨important, offset, hmem⟩ := mem_values_ofRules hx
    exact (h _ hmem).own
  mixins x hx := by
    rcases mem_mixins_ofRules hx with ⟨-, hmem⟩ | ⟨hparams, selectors, root, -, hmem⟩
    · have hm := h _ hmem
      exact ⟨fun p hp => (hm.own.1 p hp).1, fun p hp => (hm.own.1 p hp).2, hm.mixin⟩
    · refine ⟨?_, ?_, (h _ hmem).ruleset⟩
      all_goals
        rw [hparams]
        exact nofun

/-- The scope of parameters meets a standard that the mixin and the arguments meet. -/
theorem Frame.Meets.ofArguments {m : Mixin} {mixin : String} {offset : Nat}
    {args : List (Option String × Node)} {frame : Frame}
    (h : argumentFrame m mixin offset args = .ok frame) (hm : m.Meets s)
    (hargs : ∀ v ∈ args.map Prod.snd, s.argument v) : frame.Meets s := by
  obtain ⟨hmixins, hvalues⟩ := argumentFrame_cases h
  refine ⟨fun x hx => ?_, ?_⟩
  · rcases hvalues x hx with rfl | ⟨⟨default, hname⟩, hvalue⟩
    · exact s.all hargs
    · refine s.bound (hm.names _ hname x.1 rfl) ?_
      rcases hvalue with hvalue | ⟨name, hdefault⟩
      · exact hargs _ hvalue
      · exact hm.defaults _ hdefault x.2 rfl
  · rw [hmixins]
    exact nofun

namespace Context.Meets

/-- The first context has no definitions, so that it meets any standard. -/
theorem ofOptions (o : Options) : (Context.ofOptions o).Meets s :=
  fun _ hf => absurd hf List.not_mem_nil

variable {c c' : Context}

/-- Whether a context meets a standard depends on its scopes alone. -/
theorem of_frames (h : c.Meets s) (hframes : c'.frames = c.frames) : c'.Meets s := by
  intro f hf
  exact h f (hframes ▸ hf)

/-- A context still meets a standard inside of a scope that does. -/
theorem push (h : c.Meets s) {f : Frame} (hf : f.Meets s) : (c.inFrame f).Meets s :=
  List.forall_mem_cons.mpr ⟨hf, h⟩

theorem inFrame (h : c.Meets s) {rules : List Node} (hrules : ∀ n ∈ rules, n.Meets s) :
    (c.inFrame (.ofRules rules)).Meets s := h.push (.ofRules hrules)

/-- What a variable stands for is as the standard asks. -/
theorem definition {name : String} {v : Node} (h : c.Meets s) (hv : c.definition? name = some v) :
    s.definition name v := by
  obtain ⟨f, hf, hmem⟩ := mem_of_definition? hv
  exact (h f hf).values _ hmem

/-- A mixin that is called meets the standard. -/
theorem mixin {name : String} {m : Mixin} (h : c.Meets s) (hm : c.mixin? name = some m) :
    m.Meets s := by
  obtain ⟨f, hf, hmem⟩ := mem_of_mixin? hm
  exact (h f hf).mixins _ hmem

theorem inVariable {name : String} {inside : Context} (h : c.Meets s)
    (hi : c.inVariable name = .ok inside) :
    inside.Meets s := by
  obtain ⟨-, rfl⟩ := inVariable_eq_ok hi
  exact h

theorem inMixin {name : String} {inside : Context} (h : c.Meets s)
    (hi : c.inMixin name = .ok inside) :
    inside.Meets s := by
  obtain ⟨-, rfl⟩ := inMixin_eq_ok hi
  exact h

end Context.Meets

end LessCss
