import LessCss.Proofs.Evaluation.Alike

/-!
# What a mixin sees of its caller

The rules of a mixin are evaluated in the scopes of the call, under the scope of the parameters.  So
a name that the mixin does not bind itself is looked up in the rule sets around the call before the
stylesheet is asked (`Call.takes_from_caller`).

Where these rule sets define none of the names that the mixin takes from the stylesheet, the mixin
is evaluated as at the top of the stylesheet (`Call.result_eq`), and calls with the same arguments
give the same from everywhere (`Call.result_independent`).
-/

namespace LessCss

open Evaluation Context

/-! ## Values that look at given variables only -/

/-- A value in which only variables out of a list are asked for. -/
def Node.ReadsOnly (names : List String) : Node → Prop := IsValueOf fun m => m.asked ⊆ names

namespace Node

variable {names : List String} {n : Node}

/-- A row of values reads only some names if each of the values does. -/
theorem readsOnly_row {values : List Node} (h : ∀ v ∈ values, v.ReadsOnly names) :
    (row values).ReadsOnly names :=
  isValueOf_iff.mpr ⟨rfl, List.nil_subset _, h⟩

theorem readsOnly_keyword (text : String) : (keyword text).ReadsOnly names :=
  isValueOf_iff.mpr ⟨rfl, List.nil_subset _, List.forall_mem_nil _⟩

/-- A text whose holes ask only for variables out of a list. -/
theorem readsOnly_quoted {text : String} (h : Text.asked text ⊆ names) (quote : Char)
    (escaped : Bool) :
    (quoted quote text escaped).ReadsOnly names :=
  isValueOf_iff.mpr ⟨rfl, h, nofun⟩

/-- A declaration in whose name and value only variables out of a list are asked for. -/
inductive DeclaresOver (names : List String) : Node → Prop
  | declaration {name value important isVariable offset}
      (hname : (Node.declaration name value important isVariable offset).asked ⊆ names)
      (hvalue : value.ReadsOnly names) :
      DeclaresOver names (.declaration name value important isVariable offset)

end Node

/-! ## Declarations in contexts that agree -/

namespace Evaluation

variable {d d' : Deeper} {c c' : Context} {names : List String}

/-- A declaration that reads only names both contexts agree on has the same result in both. -/
theorem declaration_alike (hd : AgreeOn (Node.ReadsOnly names) d d')
    (h : Alike (Node.ReadsOnly names) c c') {n : Node} (hn : n.DeclaresOver names) :
    eval d c n = eval d' c' n := by
  cases hn with
  | @declaration name value important isVariable offset hname hvalue =>
    cases isVariable with
    | true => rfl
    | false =>
      -- the name is filled as a string with the same holes is
      have hfill : fill d c name = fill d' c' name :=
        fill_alike hd h (Node.readsOnly_quoted hname '"' false) (List.Subset.refl _) fun hw => by
          simpa [Node.writes, Node.asked] using hw
      have hvalue (filled : String) :
          eval d (forProperty c filled) value = eval d' (forProperty c' filled) value :=
        eval_alike (.isValueOf _) hd _ _ value (h.forProperty filled) hvalue
      simp only [eval, hfill, hvalue]

/-- So have the declarations of a mixin, one after the other. -/
theorem evalSplice_declarations (hd : AgreeOn (Node.ReadsOnly names) d d')
    (h : Alike (Node.ReadsOnly names) c c') :
    ∀ rules : List Node, (∀ n ∈ rules, n.DeclaresOver names) →
    evalSplice d c rules = evalSplice d' c' rules
  | [], _ => rfl
  | rule :: rules, hrules => by
    obtain ⟨hrule, hrules⟩ := List.forall_mem_cons.mp hrules
    simp only [evalSplice, declaration_alike hd h hrule, evalSplice_declarations hd h rules hrules]

end Evaluation

/-! ## What parameters are bound to -/

/-- A name that is bound stays bound when a name is bound. -/
theorem Bindings.isSome_lookup_put {α : Type} {b : Bindings α} {name x : String} (a : α)
    (h : x = name ∨ (b.lookup x).isSome) : ((b.put name a).lookup x).isSome := by
  rw [lookup_put]
  split
  · rfl
  · next hne => exact h.resolve_left hne

namespace Evaluation

/-- Every parameter with a name gets bound, and what was bound stays so. -/
theorem bindParameters_binds {mixin : String} {offset : Nat}
    {params : List (Option String × Option Node)} {positional : List Node}
    {named bound result : Bindings Node} {x : String}
    (h : bindParameters mixin offset params positional named bound = .ok result)
    (hx : x ∈ params.filterMap Prod.fst ∨ (bound.lookup x).isSome) : (result.lookup x).isSome := by
  fun_induction bindParameters mixin offset params positional named bound with
  | case1 positional named bound hempty =>
    cases h
    exact hx.resolve_left List.not_mem_nil
  | case2 => cases h
  | case3 default params positional named bound ih => exact ih h hx
  | case4 positional named bound name default params value hlookup ih
  | case5 named bound name default params value rest hlookup ih
  | case6 named bound name params value hlookup ih =>
    refine ih h ?_
    rcases hx with hx | hx
    · rcases List.mem_cons.mp hx with rfl | hx
      · exact .inr (Bindings.isSome_lookup_put _ (.inl rfl))
      · exact .inl hx
    · exact .inr (Bindings.isSome_lookup_put _ (.inr hx))
  | case7 => cases h

/-- What parameters are bound to does not depend on where the call stands, nor on how the mixin was
named. -/
theorem bindParameters_place {mixin mixin' : String} {offset offset' : Nat}
    {params : List (Option String × Option Node)} {positional : List Node}
    {named bound result : Bindings Node}
    (h : bindParameters mixin offset params positional named bound = .ok result) :
    bindParameters mixin' offset' params positional named bound = .ok result := by
  fun_induction bindParameters mixin offset params positional named bound with
  | case1 positional named bound hempty =>
    unfold bindParameters
    rw [if_pos hempty]
    exact h
  | case2 => cases h
  | case3 default params positional named bound ih => exact ih h
  | case4 positional named bound name default params value hlookup ih
  | case5 named bound name default params value rest hlookup ih
  | case6 named bound name params value hlookup ih =>
    unfold bindParameters
    simp only [hlookup]
    exact ih h
  | case7 => cases h

/-- The place of a call and the name in it count for its errors only, and not for the scope of the
call. -/
theorem argumentFrame_place {m : Mixin} {mixin mixin' : String} {offset offset' : Nat}
    {args : List (Option String × Node)} {frame : Frame}
    (h : argumentFrame m mixin offset args = .ok frame) :
    argumentFrame m mixin' offset' args = .ok frame := by
  obtain ⟨bound, hbound, h⟩ := exists_of_bind_eq_ok h
  unfold argumentFrame
  dsimp only
  rw [bindParameters_place hbound]
  exact h

end Evaluation

/-! ## Calls in rule sets -/

/-- A rule that evaluation comes to in rule sets alone, with the rules of these, the innermost
first. -/
inductive Config.StandsIn (o : Options) (sheet : List Node) : List (List Node) → Config → Prop
  | top {rule} (h : rule ∈ sheet) :
  StandsIn o sheet [] ⟨(ofOptions o).inFrame (.ofRules sheet), rule⟩
  | nested {around c selectors rules own rule}
      (outer : StandsIn o sheet around ⟨c, .ruleset selectors rules false⟩)
      (filled : selectors.mapM (fillSelector .unbounded c) = .ok own) (h : rule ∈ rules) :
      StandsIn o sheet (rules :: around)
        ⟨(c.underSelectors (Selector.joinAll c.selectors own)).inFrame (.ofRules rules), rule⟩

/-- The context in rule sets of a stylesheet. -/
def Context.inRulesets (o : Options) (sheet : List Node) (around : List (List Node))
    (selectors : List Selector) : Context :=
  { ofOptions o with
    frames := around.map Frame.ofRules ++ [.ofRules sheet], selectors := selectors }

/-- Where something stands, the scopes are those of the rule sets around it. -/
theorem Config.StandsIn.context_eq {o : Options} {sheet : List Node} {around : List (List Node)}
    {s : Config} (h : StandsIn o sheet around s) :
    ∃ selectors, s.context = inRulesets o sheet around selectors := by
  induction h with
  | top => exact ⟨[], rfl⟩
  | nested _ _ _ ih =>
    obtain ⟨selectors, hc⟩ := ih
    dsimp only at hc
    exact ⟨_, by rw [hc]; rfl⟩

/-- A call of a mixin in rule sets of a stylesheet, with arguments of the given names and values. -/
structure Call (o : Options) (sheet : List Node) (m : Mixin)
    (arguments : List (Option String × Node)) (important : Bool) where
  around : List (List Node)
  context : Context
  name : String
  args : List Node
  offset : Nat
  values : List Node
  stands : Config.StandsIn o sheet around ⟨context, .mixinCall name args important offset⟩
  found : context.mixin? name = some m
  evaluated : evalEach .unbounded context args = .ok values
  named : (args.map argumentName?).zip values = arguments

/-- The names that a mixin binds: those of its parameters, that of all arguments, and what its rules
define. -/
def Mixin.bound (m : Mixin) : List String :=
  "@arguments" :: (m.params.filterMap Prod.fst ++ (Frame.ofRules m.rules).values.map Prod.fst)

/-- A mixin of declarations that asks, for arguments of the given values, only for names out of a
list: directly, or through its defaults, the arguments, or the definitions that the stylesheet has
for names that the mixin does not bind. -/
structure Mixin.ReadsOnly (m : Mixin) (names : List String) (sheet : List Node)
    (arguments : List (Option String × Node)) : Prop where
  rules : ∀ rule ∈ m.rules, rule.DeclaresOver names
  defaults : ∀ name value, (name, some value) ∈ m.params → value.ReadsOnly names
  arguments : ∀ value ∈ arguments.map Prod.snd, value.ReadsOnly names
  sheet : ∀ x ∈ names, x ∉ m.bound → ∀ value, (Frame.ofRules sheet).values.lookup x = some value →
    value.ReadsOnly names

/-- Rule sets that define none of the names out of a list that a mixin does not bind itself. -/
def Mixin.FreeOf (m : Mixin) (names : List String) (around : List (List Node)) : Prop :=
  ∀ rules ∈ around, ∀ x ∈ names, x ∉ m.bound → (Frame.ofRules rules).values.lookup x = none

/-! ## Scopes -/

section Scopes

variable {o : Options} {sheet : List Node} {m : Mixin} {arguments : List (Option String × Node)}
  {names : List String} {around : List (List Node)} {name : String} {offset : Nat} {frame : Frame}

/-- The scope in which the rules of a mixin are evaluated, for a call in rule sets. -/
def Mixin.inside (m : Mixin) (frame : Frame) (c : Context) : Context :=
  ({ c with mixinDepth := c.mixinDepth + 1 }.inFrame frame).inFrame (.ofRules m.rules)

/-- What a mixin binds is found in its own scopes. -/
theorem Mixin.bound_found (hframe : argumentFrame m name offset arguments = .ok frame) {x : String}
    (hx : x ∈ m.bound) :
    ((Frame.ofRules m.rules).values.lookup x).isSome ∨ (frame.values.lookup x).isSome := by
  obtain ⟨bound, hbound, hframe⟩ := exists_of_bind_eq_ok hframe
  cases hframe
  rcases List.mem_cons.mp hx with rfl | hx
  · exact .inr (Bindings.isSome_lookup_put _ (.inl rfl))
  rcases List.mem_append.mp hx with hx | hx
  · exact .inr (Bindings.isSome_lookup_put _ (.inr (bindParameters_binds hbound (.inl hx))))
  · obtain ⟨v, hv, rfl⟩ := List.mem_map.mp hx
    exact .inl (List.lookup_isSome_iff.mpr ⟨v, hv, beq_self_eq_true _⟩)

/-- The definitions that a mixin finds stand in its own scopes or in the stylesheet. -/
theorem Mixin.FreeOf.definition?_eq (hfree : m.FreeOf names around)
    (hframe : argumentFrame m name offset arguments = .ok frame) (selectors : List Selector)
    {x : String} (hx : x ∈ names) :
    (m.inside frame (inRulesets o sheet around selectors)).definition? x =
      (m.inside frame (inRulesets o sheet [] [])).definition? x := by
  simp only [Context.definition?, Mixin.inside, inFrame, inRulesets, List.findSome?_cons,
    List.map_nil, List.nil_append]
  by_cases hbound : x ∈ m.bound
  · rcases m.bound_found hframe hbound with hfound | hfound
    · obtain ⟨v, hv⟩ := Option.isSome_iff_exists.mp hfound
      rw [hv]
    · obtain ⟨v, hv⟩ := Option.isSome_iff_exists.mp hfound
      rw [hv]
  · have hnone : (around.map Frame.ofRules).findSome? (fun f => f.values.lookup x) = none := by
      rw [List.findSome?_eq_none_iff]
      intro f hf
      obtain ⟨rules, hrules, rfl⟩ := List.mem_map.mp hf
      exact hfree rules hrules x hx hbound
    rw [List.findSome?_append, hnone, Option.none_or, List.findSome?_cons]

/-- The definitions that a mixin finds ask only for the names that it does. -/
theorem Mixin.ReadsOnly.definition (h : m.ReadsOnly names sheet arguments)
    (hframe : argumentFrame m name offset arguments = .ok frame) {x : String} (hx : x ∈ names)
    {v : Node} (hv : (m.inside frame (inRulesets o sheet [] [])).definition? x = some v) :
    v.ReadsOnly names := by
  have hown : (x, v) ∈ (Frame.ofRules m.rules).values → v.ReadsOnly names := by
    intro hmem
    obtain ⟨important, offset, hrule⟩ := Frame.mem_values_ofRules hmem
    cases h.rules _ hrule with
    | declaration _ hvalue => exact hvalue
  have hargument : (x, v) ∈ frame.values → v.ReadsOnly names := by
    intro hmem
    rcases (argumentFrame_cases hframe).2 _ hmem with heq | ⟨-, hvalue | ⟨name, hdefault⟩⟩
    · cases heq
      exact Node.readsOnly_row h.arguments
    · exact h.arguments v hvalue
    · exact h.defaults name v hdefault
  simp only [Context.definition?, Mixin.inside, inFrame, inRulesets, List.findSome?_cons,
    List.map_nil, List.nil_append] at hv
  split at hv
  · next hlookup =>
    cases hv
    exact hown (Bindings.mem_of_lookup hlookup)
  next hnoRule =>
  split at hv
  · next hlookup =>
    cases hv
    exact hargument (Bindings.mem_of_lookup hlookup)
  next hnoArgument =>
  have hbound : x ∉ m.bound := by
    intro hbound
    rcases m.bound_found hframe hbound with hfound | hfound
    · simp [hnoRule] at hfound
    · simp [hnoArgument] at hfound
  split at hv
  · next hlookup =>
    cases hv
    exact h.sheet x hx hbound v hlookup
  · cases hv

/-- For the rules of a mixin, the rule sets around the call make no difference. -/
theorem Mixin.ReadsOnly.alike (h : m.ReadsOnly names sheet arguments)
    (hfree : m.FreeOf names around) (hframe : argumentFrame m name offset arguments = .ok frame)
    (selectors : List Selector) :
    Alike (Node.ReadsOnly names) (m.inside frame (inRulesets o sheet around selectors))
      (m.inside frame (inRulesets o sheet [] [])) where
  math := rfl
  mathOn := rfl
  inCalc := rfl
  parens := rfl
  pending := rfl
  strict := rfl
  style := .inl rfl
  definition n hn x hx := by
    have hname := hn.2.self hx
    rw [hfree.definition?_eq hframe selectors hname]
    exact ⟨rfl, fun v hv => h.definition hframe hname hv⟩

end Scopes

/-! ## What a call gives -/

namespace Call

variable {o : Options} {sheet : List Node} {m : Mixin} {arguments : List (Option String × Node)}
  {important : Bool} {names : List String}

/-- What a call gives. -/
def result (call : Call o sheet m arguments important) : Except Error Yield :=
  call.context.eval (.mixinCall call.name call.args important call.offset)

/-- The first call of a mixin can always be entered. -/
theorem inMixin_eq (call : Call o sheet m arguments important) :
    call.context.inMixin call.name =
      .ok { call.context with mixinDepth := call.context.mixinDepth + 1 } := by
  obtain ⟨selectors, hc⟩ := call.stands.context_eq
  dsimp only at hc
  rw [hc]
  rfl

/-- A call gives the rules of the mixin, evaluated in the scope of its parameters. -/
theorem result_steps (call : Call o sheet m arguments important) :
    call.result = (do
      let frame ← argumentFrame m call.name call.offset arguments
      let rules ← evalSplice .unbounded (m.inside frame call.context) m.rules
      return .many (if important then makeAllImportant rules else rules)) := by
  have hexpand : call.result = (do
      let rules ← expand .unbounded call.context m call.name call.args call.values important
          call.offset
      return .many rules) := by
    unfold result
    rw [Context.eval_eq]
    simp only [Evaluation.eval, call.found, call.evaluated]
    rfl
  rw [hexpand]
  unfold expand
  rw [call.named, call.inMixin_eq]
  simp only [Deeper.unbounded_rules, evalRules, bind_assoc, pure_bind]
  rfl

/-- **Where the rule sets around a call define nothing that the mixin asks for and does not bind,
the mixin is evaluated in its own scopes and that of the stylesheet alone.** -/
theorem result_eq (call : Call o sheet m arguments important)
    (h : m.ReadsOnly names sheet arguments) (hfree : m.FreeOf names call.around) :
    call.result = (do
      let frame ← argumentFrame m call.name call.offset arguments
      let rules ← evalSplice .unbounded (m.inside frame (inRulesets o sheet [] [])) m.rules
      return .many (if important then makeAllImportant rules else rules)) := by
  rw [call.result_steps]
  cases hframe : argumentFrame m call.name call.offset arguments with
  | error e => rfl
  | ok frame =>
    obtain ⟨selectors, hc⟩ := call.stands.context_eq
    dsimp only at hc
    have halike := h.alike (o := o) hfree hframe selectors
    have hrules :=
      evalSplice_declarations (Deeper.unbounded_agreeOn (.isValueOf _)) halike m.rules h.rules
    rw [← hc] at hrules
    show evalSplice .unbounded (m.inside frame call.context) m.rules >>= _ = _
    rw [hrules]
    rfl

/-- **Calls of a mixin with the same arguments give the same declarations from everywhere**, if no
rule set around a call defines a name that the mixin asks for and does not bind. -/
theorem result_independent (call other : Call o sheet m arguments important)
    (h : m.ReadsOnly names sheet arguments) (hcall : m.FreeOf names call.around)
    (hother : m.FreeOf names other.around) (y : Yield) :
    call.result = .ok y ↔ other.result = .ok y := by
  suffices key : ∀ call other : Call o sheet m arguments important, m.FreeOf names call.around →
      m.FreeOf names other.around → call.result = .ok y → other.result = .ok y from
    ⟨key call other hcall hother, key other call hother hcall⟩
  intro call other hcall hother hy
  rw [call.result_eq h hcall] at hy
  obtain ⟨frame, hframe, hy⟩ := exists_of_bind_eq_ok hy
  rw [other.result_eq h hother, argumentFrame_place hframe]
  exact hy

end Call

/-! ## A variable that is defined anew -/

namespace Shadowing

/-- A mixin that asks for its parameter and for a variable that it does not bind. -/
def mixin : Mixin :=
  ⟨".m", [(some "@n", none)], none,
    [.declaration "w" (.row [.reference "@x" 0, .reference "@n" 0]) false false 0]⟩

/-- A call of the mixin. -/
def call : Node := .mixinCall ".m" [.argument none (.keyword "k")] false 0

/-- The rules of a rule set that defines the variable anew. -/
def anew : List Node := [.declaration "@x" (.keyword "q") false true 0, call]

/-- The rules of a rule set that defines another variable; the mixin is called in it and further
inside. -/
def apart : List Node :=
  [.declaration "@y" (.keyword "q") false true 0,
    .ruleset [.mk [⟨.none, ".c"⟩] []] [call] false, call]

/-- A stylesheet with the variable, the mixin and the two rule sets. -/
def sheet : List Node :=
  [.declaration "@x" (.keyword "p") false true 0, mixin.toNode,
    .ruleset [.mk [⟨.none, ".a"⟩] []] anew false, .ruleset [.mk [⟨.none, ".b"⟩] []] apart false]

theorem readsOnly : mixin.ReadsOnly ["@x", "@n"] sheet [(none, .keyword "k")] where
  rules := by
    have hreference (name : String) (h : name ∈ ["@x", "@n"]) :
        (Node.reference name 0).ReadsOnly ["@x", "@n"] :=
      Node.isValueOf_iff.mpr
        ⟨rfl, List.cons_subset.mpr ⟨h, List.nil_subset _⟩, List.forall_mem_nil _⟩
    refine List.forall_mem_singleton.mpr (.declaration (by decide +kernel) (Node.readsOnly_row ?_))
    exact List.forall_mem_cons.mpr
      ⟨hreference "@x" (by simp), List.forall_mem_singleton.mpr (hreference "@n" (by simp))⟩
  defaults name value h := by simp [mixin] at h
  arguments := List.forall_mem_singleton.mpr (Node.readsOnly_keyword "k")
  sheet := by
    intro x hx hbound value hvalue
    obtain ⟨important, offset, hmem⟩ := Frame.mem_values_ofRules (Bindings.mem_of_lookup hvalue)
    obtain rfl : value = .keyword "p" := by simp_all [sheet, Mixin.toNode]
    exact Node.readsOnly_keyword "p"

/-- The call, where evaluation comes to it. -/
def callIn {around : List (List Node)} {c : Context}
    (stands : Config.StandsIn {} sheet around ⟨c, call⟩) (found : c.mixin? ".m" = some mixin) :
    Call {} sheet mixin [(none, .keyword "k")] false where
  around := around
  context := c
  name := ".m"
  args := [.argument none (.keyword "k")]
  offset := 0
  values := [.keyword "k"]
  stands := stands
  found := found
  evaluated := rfl
  named := rfl

theorem mem_sheet : .ruleset [.mk [⟨.none, ".a"⟩] []] anew false ∈ sheet ∧
    .ruleset [.mk [⟨.none, ".b"⟩] []] apart false ∈ sheet := by
  simp [sheet]

/-- From the rule set that defines the variable anew. -/
def callAnew : Call {} sheet mixin [(none, .keyword "k")] false :=
  callIn (.nested (.top mem_sheet.1) rfl (.tail _ (.head _))) rfl

/-- From the rule set that defines another variable. -/
def callApart : Call {} sheet mixin [(none, .keyword "k")] false :=
  callIn (.nested (.top mem_sheet.2) rfl (.tail _ (.tail _ (.head _)))) rfl

/-- From the rule set inside of the latter. -/
def callInside : Call {} sheet mixin [(none, .keyword "k")] false :=
  callIn (.nested (.nested (.top mem_sheet.2) rfl (.tail _ (.head _))) rfl (.head _)) rfl

end Shadowing

namespace Call

open Shadowing

/-- A call in one rule set and a call in a rule set within another have the same result. -/
theorem result_independent_apart :
    callApart.around = [apart] ∧ callInside.around = [[call], apart] ∧
    ∀ y, callApart.result = .ok y ↔ callInside.result = .ok y := by
  have hfree : ∀ rules ∈ [[call], apart], ∀ x ∈ ["@x", "@n"],
      (Frame.ofRules rules).values.lookup x = none := by decide +kernel
  have hinside : mixin.FreeOf ["@x", "@n"] callInside.around := fun rules hrules x hx _ =>
    hfree rules hrules x hx
  have hapart : mixin.FreeOf ["@x", "@n"] callApart.around := fun rules hrules =>
    hinside rules (List.mem_cons_of_mem _ hrules)
  exact ⟨rfl, rfl, result_independent callApart callInside readsOnly hapart hinside⟩

/-- **The scope of the caller comes first.**  The mixin asks for a variable of the stylesheet and is
called with the same argument twice, but gets another value from the rule set that defines the
variable anew. -/
theorem takes_from_caller : mixin.ReadsOnly ["@x", "@n"] sheet [(none, .keyword "k")] ∧
    (∀ x ∈ ["@x", "@n"], x ∈ mixin.bound ∨ ((Frame.ofRules sheet).values.lookup x).isSome) ∧
    callAnew.result =
      .ok (.many [.declaration "w" (.row [.keyword "q", .keyword "k"]) false false 0]) ∧
    callApart.result =
      .ok (.many [.declaration "w" (.row [.keyword "p", .keyword "k"]) false false 0]) :=
  ⟨readsOnly, by decide +kernel, rfl, rfl⟩

end Call

end LessCss
