import LessCss.Proofs.Evaluation.Plain
import LessCss.Proofs.Evaluation.Steps

/-!
# Names in reach

Where do the definitions come from that evaluation finds?  A scope is made of the definitions among
some rules, or of the parameters of a mixin with the arguments of a call.  The former stand in a
node that was reached already; the latter have been evaluated, so they are plain and define nothing.
Hence no step of evaluation brings names into reach that were not there
(`Config.Enters.names_subset`), the name of all arguments of a call apart, which is taken to be in
reach from the start.
-/

namespace LessCss

/-! ## Bindings and scopes -/

namespace Bindings

variable {α : Type} {b : Bindings α} {name : String} {a : α} {x : String × α}

theorem mem_put (h : x ∈ b.put name a) : x ∈ b ∨ x = (name, a) := by
  induction b with
  | nil => exact .inr (List.mem_singleton.mp h)
  | cons y rest ih =>
    obtain ⟨n, z⟩ := y
    unfold put at h
    split at h
    · next hn =>
      subst hn
      rcases List.mem_cons.mp h with h | h
      · exact .inr h
      · exact .inl (List.mem_cons_of_mem _ h)
    · rcases List.mem_cons.mp h with h | h
      · exact .inl (h ▸ List.mem_cons_self)
      · exact (ih h).imp_left (List.mem_cons_of_mem _)

theorem mem_putNew (h : x ∈ b.putNew name a) : x ∈ b ∨ x = (name, a) := by
  unfold putNew at h
  split at h
  · exact .inl h
  · exact mem_put h

/-- What a name stands for is bound to it. -/
theorem mem_of_lookup (h : b.lookup name = some a) : (name, a) ∈ b := by
  obtain ⟨l, r, rfl, -⟩ := List.lookup_eq_some_iff.mp h
  simp

/-- What a name is bound to afterwards. -/
theorem lookup_put (b : Bindings α) (name x : String) (a : α) :
    (b.put name a).lookup x = if x = name then some a else b.lookup x := by
  have hother {n : String} {y : α} {rest : Bindings α} (hx : x ≠ n) :
      List.lookup x ((n, y) :: rest) = rest.lookup x := by rw [List.lookup_cons, beq_false_of_ne hx]
  induction b with
  | nil =>
    by_cases hx : x = name
    · simp [put, hx]
    · rw [put, hother hx, if_neg hx]
  | cons entry rest ih =>
    obtain ⟨n, y⟩ := entry
    rw [put]
    by_cases hn : n = name
    · subst hn
      by_cases hx : x = n
      · simp [hx]
      · rw [if_pos rfl, hother hx, hother hx, if_neg hx]
    · rw [if_neg hn]
      by_cases hx : x = n
      · subst hx
        simp [hn]
      · rw [hother hx, hother hx, ih]

end Bindings

namespace Frame

/-- A variable of a scope is defined by one of the rules. -/
theorem mem_values_ofRules {rules : List Node} {x : String × Node}
    (h : x ∈ (ofRules rules).values) :
    ∃ important offset, Node.declaration x.1 x.2 important true offset ∈ rules := by
  suffices key : ∀ (rules : List Node) (f : Frame), x ∈ (rules.foldl add f).values →
      x ∈ f.values ∨ ∃ important offset, Node.declaration x.1 x.2 important true offset ∈ rules by
    exact (key rules {} h).resolve_left List.not_mem_nil
  intro rules
  induction rules with
  | nil => exact fun f h => .inl h
  | cons rule rules ih =>
    intro f h
    rcases ih _ h with h | ⟨important, offset, h⟩
    · unfold add at h
      split at h
      · rcases Bindings.mem_put h with h | rfl
        · exact .inl h
        · exact .inr ⟨_, _, List.mem_cons_self⟩
      · exact .inl h
      · split at h <;> exact .inl h
      · exact .inl h
    · exact .inr ⟨important, offset, List.mem_cons_of_mem _ h⟩

/-- A mixin of a scope is one of the rules: a mixin under its name, or a rule set, which has no
parameters, under that by which it is called. -/
theorem mem_mixins_ofRules {rules : List Node} {x : String × Mixin}
    (h : x ∈ (ofRules rules).mixins) :
    x.1 = x.2.name ∧ x.2.toNode ∈ rules ∨ x.2.params = [] ∧
      ∃ selectors root, Selector.callKey? selectors = some x.1 ∧
      Node.ruleset selectors x.2.rules root ∈ rules := by
  suffices key : ∀ (rules : List Node) (f : Frame), x ∈ (rules.foldl add f).mixins →
      x ∈ f.mixins ∨ x.1 = x.2.name ∧ x.2.toNode ∈ rules ∨ x.2.params = [] ∧
        ∃ selectors root, Selector.callKey? selectors = some x.1 ∧
          Node.ruleset selectors x.2.rules root ∈ rules by
    exact (key rules {} h).resolve_left List.not_mem_nil
  intro rules
  induction rules with
  | nil => exact fun f h => .inl h
  | cons rule rules ih =>
    intro f h
    rcases ih _ h with h | ⟨hname, h⟩ | ⟨hp, selectors, root, hkey, h⟩
    · unfold add at h
      split at h
      · exact .inl h
      · rcases Bindings.mem_put h with h | rfl
        · exact .inl h
        · exact .inr (.inl ⟨rfl, List.mem_cons_self⟩)
      · split at h
        · next hkey =>
          rcases Bindings.mem_putNew h with h | rfl
          · exact .inl h
          · exact .inr (.inr ⟨rfl, _, _, hkey, List.mem_cons_self⟩)
        · exact .inl h
      · exact .inl h
    · exact .inr (.inl ⟨hname, List.mem_cons_of_mem _ h⟩)
    · exact .inr (.inr ⟨hp, selectors, root, hkey, List.mem_cons_of_mem _ h⟩)

/-- The names of a scope are those of its values and those defined in its values and mixins. -/
theorem mem_definedNames {f : Frame} {x : String} :
    x ∈ f.definedNames ↔
      (∃ v ∈ f.values, x = v.1 ∨ x ∈ v.2.definedNames) ∨ ∃ m ∈ f.mixins,
        x ∈ m.2.toNode.definedNames := by
  simp only [definedNames, List.mem_append, List.mem_flatMap, List.mem_cons]

end Frame

theorem Node.mem_definedNamesAll {nodes : List Node} {x : String} :
    x ∈ Node.definedNamesAll nodes ↔ ∃ n ∈ nodes, x ∈ n.definedNames := by
  induction nodes with
  | nil => simp [Node.definedNamesAll]
  | cons node nodes ih => simp [Node.definedNamesAll, ih]

theorem Node.mem_definedNamesParams {params : List (Option String × Option Node)} {x : String} :
    x ∈ Node.definedNamesParams params ↔
      ∃ p ∈ params, p.1 = some x ∨ ∃ default, p.2 = some default ∧ x ∈ default.definedNames := by
  induction params with
  | nil => simp [Node.definedNamesParams]
  | cons param params ih =>
    obtain ⟨name, default⟩ := param
    cases default with
    | none => simp [Node.definedNamesParams, Node.definedNamesHeader, ih]
    | some default => simp [Node.definedNamesParams, Node.definedNamesHeader, ih, or_assoc]

/-- A scope brings no names into reach but those of its rules. -/
theorem Frame.definedNames_ofRules (rules : List Node) :
    (Frame.ofRules rules).definedNames ⊆ Node.definedNamesAll rules := by
  intro x hx
  rw [Node.mem_definedNamesAll]
  rcases Frame.mem_definedNames.mp hx with ⟨v, hv, hx⟩ | ⟨m, hm, hx⟩
  · obtain ⟨important, offset, hmem⟩ := mem_values_ofRules hv
    exact ⟨_, hmem, by simpa [Node.definedNames] using hx⟩
  · rcases mem_mixins_ofRules hm with ⟨-, hmem⟩ | ⟨hp, selectors, root, -, hmem⟩
    · exact ⟨_, hmem, hx⟩
    · refine ⟨_, hmem, ?_⟩
      simpa [Mixin.toNode, Node.definedNames, Node.definedNamesParams, hp] using hx

/-! ## Definitions that are found -/

namespace Context

/-- The names in reach from some nodes: those that they or a scope around define, and that of all
arguments. -/
def names (c : Context) (nodes : List Node) : List String :=
  "@arguments" :: (c.frames.flatMap Frame.definedNames ++ Node.definedNamesAll nodes)

variable {c : Context} {name : String}

/-- What a variable stands for is a value of one of the scopes. -/
theorem mem_of_definition? {definition : Node} (h : c.definition? name = some definition) :
    ∃ f ∈ c.frames, (name, definition) ∈ f.values := by
  obtain ⟨f, hf, hl⟩ := List.exists_of_findSome?_eq_some h
  exact ⟨f, hf, Bindings.mem_of_lookup hl⟩

/-- A mixin that is called is bound in one of the scopes. -/
theorem mem_of_mixin? {m : Mixin} (h : c.mixin? name = some m) :
    ∃ f ∈ c.frames, (name, m) ∈ f.mixins := by
  obtain ⟨f, hf, hl⟩ := List.exists_of_findSome?_eq_some h
  exact ⟨f, hf, Bindings.mem_of_lookup hl⟩

/-- A variable is entered if it is not under way, and then it is. -/
theorem inVariable_eq_ok {inside : Context} (h : c.inVariable name = .ok inside) :
    name ∉ c.pending ∧ inside = { c with pending := name :: c.pending } := by
  unfold inVariable at h
  split at h
  · cases h
  · next hpending =>
    cases h
    exact ⟨by simpa using hpending, rfl⟩

/-- A mixin is entered while calls do not nest too deep, and then one more is under way. -/
theorem inMixin_eq_ok {inside : Context} (h : c.inMixin name = .ok inside) :
    c.mixinDepth < mixinDepthLimit ∧ inside = { c with mixinDepth := c.mixinDepth + 1 } := by
  unfold inMixin at h
  split at h
  · cases h
  · next hdepth =>
    cases h
    exact ⟨Nat.lt_of_not_ge hdepth, rfl⟩

end Context

/-! ## Arguments -/

namespace Evaluation

/-- A parameter, with a value that it may be bound to: an argument or a default. -/
def Bindable (params : List (Option String × Option Node)) (positional : List Node)
    (named : Bindings Node) (x : String × Node) : Prop :=
  (∃ default, (some x.1, default) ∈ params) ∧
    (x.2 ∈ positional ∨ (∃ name, (name, x.2) ∈ named) ∨ ∃ name, (name, some x.2) ∈ params)

/-- What may be bound in a call may be bound in a call with more parameters and arguments. -/
theorem Bindable.mono {params params' : List (Option String × Option Node)}
    {positional positional' : List Node} {named named' : Bindings Node} {x : String × Node}
    (h : Bindable params positional named x) (hparams : params ⊆ params')
    (hpositional : positional ⊆ positional') (hnamed : named ⊆ named') :
    Bindable params' positional' named' x := by
  obtain ⟨⟨default, hp⟩, hv⟩ := h
  refine ⟨⟨default, hparams hp⟩, ?_⟩
  rcases hv with hv | ⟨name, hv⟩ | ⟨name, hv⟩
  · exact .inl (hpositional hv)
  · exact .inr (.inl ⟨name, hnamed hv⟩)
  · exact .inr (.inr ⟨name, hparams hv⟩)

/-- Every parameter is bound to an argument or a default. -/
theorem bindable_of_mem {mixin : String} {offset : Nat}
    {params : List (Option String × Option Node)} {positional : List Node}
    {named bound result : Bindings Node}
    (h : bindParameters mixin offset params positional named bound = .ok result) {x : String × Node}
    (hx : x ∈ result) : x ∈ bound ∨ Bindable params positional named x := by
  fun_induction bindParameters mixin offset params positional named bound with
  | case1 positional named bound hempty =>
    cases h
    exact .inl hx
  | case2 => cases h
  | case3 default params positional named bound ih =>
    exact (ih h).imp_right fun hb =>
      hb.mono (List.subset_cons_self _ _) (List.tail_sublist _).subset (List.Subset.refl _)
  | case4 positional named bound name default params value hlookup ih =>
    rcases ih h with hb | hb
    · rcases Bindings.mem_put hb with hb | rfl
      · exact .inl hb
      · exact .inr ⟨⟨_, List.mem_cons_self⟩, .inr (.inl ⟨_, Bindings.mem_of_lookup hlookup⟩)⟩
    · exact .inr
        (hb.mono (List.subset_cons_self _ _) (List.Subset.refl _) List.filter_sublist.subset)
  | case5 named bound name default params value rest hlookup ih =>
    rcases ih h with hb | hb
    · rcases Bindings.mem_put hb with hb | rfl
      · exact .inl hb
      · exact .inr ⟨⟨_, List.mem_cons_self⟩, .inl List.mem_cons_self⟩
    · exact .inr
        (hb.mono (List.subset_cons_self _ _) (List.subset_cons_self _ _) (List.Subset.refl _))
  | case6 named bound name params value hlookup ih =>
    rcases ih h with hb | hb
    · rcases Bindings.mem_put hb with hb | rfl
      · exact .inl hb
      · exact .inr ⟨⟨_, List.mem_cons_self⟩, .inr (.inr ⟨_, List.mem_cons_self⟩)⟩
    · exact .inr (hb.mono (List.subset_cons_self _ _) (List.Subset.refl _) (List.Subset.refl _))
  | case7 => cases h

/-- The named arguments of a call are among its arguments. -/
theorem mem_named {args : List (Option String × Node)} {x : String × Node} {b : Bindings Node}
    (h : x ∈ args.foldl
      (fun (b : Bindings Node) a => match a.1 with
        | some name => b.put name a.2
        | none => b) b) : x ∈ b ∨ x.2 ∈ args.map Prod.snd := by
  induction args generalizing b with
  | nil => exact .inl h
  | cons arg args ih =>
    rcases ih h with h | h
    · dsimp only at h
      split at h
      · rcases Bindings.mem_put h with h | rfl
        · exact .inl h
        · exact .inr List.mem_cons_self
      · exact .inl h
    · exact .inr (List.mem_cons_of_mem _ h)

/-- The values of named arguments are those of the arguments. -/
theorem mem_values_of_named {args values : List Node} {v : Node}
    (h : v ∈ ((args.map argumentName?).zip values).map Prod.snd) : v ∈ values := by
  obtain ⟨a, ha, rfl⟩ := List.mem_map.mp h
  exact (List.of_mem_zip ha).2

/-- The scope of the parameters of a mixin: each is bound to an argument or a default, and one
further variable to all arguments. -/
theorem argumentFrame_cases {m : Mixin} {mixin : String} {offset : Nat}
    {args : List (Option String × Node)} {frame : Frame}
    (h : argumentFrame m mixin offset args = .ok frame) :
    frame.mixins = [] ∧ ∀ x ∈ frame.values,
      x = ("@arguments", .row (args.map Prod.snd)) ∨
        (∃ default, (some x.1, default) ∈ m.params) ∧
          (x.2 ∈ args.map Prod.snd ∨ ∃ name, (name, some x.2) ∈ m.params) := by
  unfold argumentFrame at h
  dsimp only at h
  obtain ⟨bound, hbound, h⟩ := exists_of_bind_eq_ok h
  cases h
  refine ⟨rfl, fun x hx => ?_⟩
  rcases Bindings.mem_put hx with hx | hx
  · right
    rcases bindable_of_mem hbound hx with hx | ⟨hname, hvalue⟩
    · cases hx
    · refine ⟨hname, ?_⟩
      rcases hvalue with hv | ⟨name, hv⟩ | hv
      · left
        obtain ⟨a, ha, he⟩ := List.mem_filterMap.mp hv
        split at he
        · exact Option.some.inj he ▸ List.mem_map_of_mem ha
        · cases he
      · exact .inl ((mem_named hv).resolve_left List.not_mem_nil)
      · exact .inr hv
  · exact .inl hx

/-- The scope of the parameters of a mixin brings no names into reach but those of the mixin, if the
arguments are plain. -/
theorem argumentFrame_definedNames {m : Mixin} {mixin : String} {offset : Nat}
    {args : List (Option String × Node)} {frame : Frame}
    (h : argumentFrame m mixin offset args = .ok frame)
    (hplain : ∀ v ∈ args.map Prod.snd, v.Plain) :
    frame.definedNames ⊆ "@arguments" :: m.toNode.definedNames := by
  obtain ⟨hmixins, hvalues⟩ := argumentFrame_cases h
  intro x hx
  have hparams : x ∈ Node.definedNamesParams m.params → x ∈ m.toNode.definedNames :=
    fun h => List.mem_append_left _ h
  rcases Frame.mem_definedNames.mp hx with ⟨v, hv, hx⟩ | ⟨m, hm, -⟩
  · rcases hvalues v hv with rfl | ⟨⟨default, hname⟩, hvalue⟩
    · have hrow : (Node.row (args.map Prod.snd)).definedNames = [] :=
        Node.definedNames_of_plain _ (Node.plainAll_iff.mpr hplain)
      rw [hrow] at hx
      rcases hx with rfl | hx
      · exact List.mem_cons_self
      · cases hx
    · refine List.mem_cons_of_mem _ (hparams (Node.mem_definedNamesParams.mpr ?_))
      rcases hx with rfl | hx
      · exact ⟨_, hname, .inl rfl⟩
      · rcases hvalue with hvalue | ⟨name, hvalue⟩
        · rw [Node.definedNames_of_plain _ (hplain _ hvalue)] at hx
          cases hx
        · exact ⟨_, hvalue, .inr ⟨_, rfl, hx⟩⟩
  · rw [hmixins] at hm
    cases hm

/-! ## Contexts inside of a node -/

/-- Two contexts with the same scopes, in which the same definitions are under way. -/
structure SameScope (a b : Context) : Prop where
  frames : b.frames = a.frames
  pending : b.pending = a.pending
  mixinDepth : b.mixinDepth = a.mixinDepth

theorem SameScope.refl (c : Context) : SameScope c c := ⟨rfl, rfl, rfl⟩

theorem sameScope_insideRow (c : Context) (parens operand : Bool) :
    SameScope c (insideRow c parens operand) := by
  unfold insideRow
  split
  · exact ⟨rfl, rfl, rfl⟩
  · exact .refl c

theorem sameScope_forProperty (c : Context) (name : String) : SameScope c (forProperty c name) := by
  unfold forProperty
  split
  · exact ⟨rfl, rfl, rfl⟩
  · exact .refl c

theorem sameScope_insideAtRule (c : Context) (name : String) :
    SameScope c (insideAtRule c name) := by
  unfold insideAtRule
  split
  · exact .refl c
  · exact ⟨rfl, rfl, rfl⟩

end Evaluation

namespace Config

open Evaluation

variable {d : Deeper} {s t : Config}

/-- The context of a part of a node is that of the node, perhaps with the scope of rules of the
node. -/
theorem Inside.cases_context (h : Inside d s t) :
    SameScope s.context t.context ∨
      ∃ c rules, SameScope s.context c ∧ t.context = c.inFrame (.ofRules rules) ∧
        Node.definedNamesAll rules ⊆ s.node.definedNames := by
  cases h with
  | item => exact .inl (sameScope_insideRow _ _ _)
  | value => exact .inl (sameScope_forProperty _ _)
  | callArgument => exact .inl ⟨rfl, rfl, rfl⟩
  | sheetRule | mediaRule =>
    refine .inr ⟨_, _, .refl _, rfl, ?_⟩
    simp [Node.definedNames]
  | rulesetRule =>
    refine .inr ⟨_, _, ?_, rfl, ?_⟩
    · exact ⟨rfl, rfl, rfl⟩
    · simp [Node.definedNames]
  | atRuleRule =>
    refine .inr ⟨_, _, sameScope_insideAtRule _ _, rfl, ?_⟩
    simp [Node.definedNames, Node.definedNamesBlock]
  | listItem | paren | left | right | negative | header | features | path | importFeatures
  | argument
  | argumentValue => exact .inl (.refl _)

/-- What is under way stays the same inside of a node. -/
theorem Inside.pending_eq (h : Inside d s t) : t.context.pending = s.context.pending := by
  rcases h.cases_context with hs | ⟨c, rules, hs, hc, -⟩
  · exact hs.pending
  · rw [hc]
    exact hs.pending

/-- Going inside of a node does not enter a mixin. -/
theorem Inside.mixinDepth_eq (h : Inside d s t) : t.context.mixinDepth = s.context.mixinDepth := by
  rcases h.cases_context with hs | ⟨c, rules, hs, hc, -⟩
  · exact hs.mixinDepth
  · rw [hc]
    exact hs.mixinDepth

/-- A node defines all names that the nodes inside of it define. -/
theorem Inside.definedNames_subset (h : Inside d s t) :
    t.node.definedNames ⊆ s.node.definedNames := by
  cases h with
  | item h | listItem h | callArgument h | sheetRule h | rulesetRule _ h | atRuleRule h
  | mediaRule h
  | argument h =>
    intro x hx
    have hall := Node.mem_definedNamesAll.mpr ⟨_, h, hx⟩
    simp [Node.definedNames, Node.definedNamesBlock, hall]
  | paren | left | right | negative | value | header | features | path | importFeatures
  | argumentValue => simp [Node.definedNames, Node.definedNamesHeader]

/-! ## Names in reach -/

/-- The names in reach from a node: those that it or a scope around defines, and that of all
arguments. -/
def names (s : Config) : List String := s.context.names [s.node]

/-- The names a configuration may ask for: those of the scopes, those of the node, and the
arguments. -/
theorem mem_names {x : String} :
    x ∈ s.names ↔ x = "@arguments" ∨ (∃ f ∈ s.context.frames, x ∈ f.definedNames) ∨
      x ∈ s.node.definedNames := by
  simp [names, Context.names, Node.definedNamesAll]

/-- The names in reach from a part of a node are in reach from the node. -/
theorem Inside.names_subset (h : Inside d s t) : t.names ⊆ s.names := by
  intro x hx
  rw [mem_names] at hx ⊢
  rcases hx with hx | ⟨f, hf, hx⟩ | hx
  · exact .inl hx
  · rcases h.cases_context with hs | ⟨c, rules, hs, hc, hrules⟩
    · exact .inr (.inl ⟨f, hs.frames ▸ hf, hx⟩)
    · rw [hc] at hf
      rcases List.mem_cons.mp hf with rfl | hf
      · exact .inr (.inr (hrules (Frame.definedNames_ofRules rules hx)))
      · exact .inr (.inl ⟨f, hs.frames ▸ hf, hx⟩)
  · exact .inr (.inr (h.definedNames_subset hx))

/-- A variable that is asked for was in reach and not under way; its definition is evaluated in the
scopes around, with the variable under way. -/
theorem Asks.cases (h : Asks s t) :
    ∃ name ∈ s.names, name ∉ s.context.pending ∧
      t.context = { s.context with pending := name :: s.context.pending } ∧
      ∃ f ∈ s.context.frames, (name, t.node) ∈ f.values := by
  cases h with
  | @definition c node name definition inside asked found enter =>
    obtain ⟨f, hf, hmem⟩ := Context.mem_of_definition? found
    obtain ⟨hpending, rfl⟩ := Context.inVariable_eq_ok enter
    have hname : name ∈ f.definedNames := Frame.mem_definedNames.mpr (.inl ⟨_, hmem, .inl rfl⟩)
    exact ⟨name, mem_names.mpr (.inr (.inl ⟨f, hf, hname⟩)), hpending, rfl, f, hf, hmem⟩

/-- Asking for a variable adds no names. -/
theorem Asks.names_subset (h : Asks s t) : t.names ⊆ s.names := by
  obtain ⟨name, -, -, hc, f, hf, hmem⟩ := h.cases
  intro x hx
  rw [mem_names, hc] at hx
  rw [mem_names]
  rcases hx with hx | hx | hx
  · exact .inl hx
  · exact .inr (.inl hx)
  · exact .inr (.inl ⟨f, hf, Frame.mem_definedNames.mpr (.inl ⟨_, hmem, .inr hx⟩)⟩)

/-- The rules of a mixin that is called stand in a scope around, and one more call is under way. -/
theorem Expands.cases {c : Context} {rules : List Node} (h : Expands d s c rules) :
    s.context.mixinDepth < mixinDepthLimit ∧
      ∃ frame, c = { s.context with
          mixinDepth := s.context.mixinDepth + 1, frames := frame :: s.context.frames } ∧
        ∃ f ∈ s.context.frames, ∃ name m, (name, m) ∈ f.mixins ∧ rules = m.rules ∧
          (d.Plain → frame.definedNames ⊆ "@arguments" :: m.toNode.definedNames) := by
  cases h with
  | @rules c name args important offset m values frame inside found evaluated bound enter =>
    obtain ⟨f, hf, hm⟩ := Context.mem_of_mixin? found
    obtain ⟨hdepth, rfl⟩ := Context.inMixin_eq_ok enter
    refine ⟨hdepth, frame, rfl, f, hf, name, m, hm, rfl, fun hd => ?_⟩
    refine argumentFrame_definedNames bound fun v hv => ?_
    exact Node.plainAll_iff.mp (evalEach_plain hd c args values evaluated) _
      (mem_values_of_named hv)

/-- Expanding a mixin adds no names. -/
theorem Expands.names_subset (hd : d.Plain) {c : Context} {rules : List Node} {rule : Node}
    (h : Expands d s c rules) (hrule : rule ∈ rules) :
    (Config.mk (c.inFrame (.ofRules rules)) rule).names ⊆ s.names := by
  obtain ⟨-, frame, rfl, f, hf, name, m, hm, rfl, hframe⟩ := h.cases
  have hmixin : ∀ x ∈ m.toNode.definedNames, x ∈ s.names := fun x hx =>
    mem_names.mpr (.inr (.inl ⟨f, hf, Frame.mem_definedNames.mpr (.inr ⟨_, hm, hx⟩)⟩))
  have hrules : ∀ x ∈ Node.definedNamesAll m.rules, x ∈ s.names := fun x hx =>
    hmixin x (List.mem_append_right _ hx)
  intro x hx
  rcases mem_names.mp hx with rfl | ⟨g, hg, hxg⟩ | hxr
  · exact mem_names.mpr (.inl rfl)
  · rcases List.mem_cons.mp hg with rfl | hg
    · exact hrules x (Frame.definedNames_ofRules _ hxg)
    · rcases List.mem_cons.mp hg with rfl | hg
      · rcases List.mem_cons.mp (hframe hd hxg) with rfl | hxm
        · exact mem_names.mpr (.inl rfl)
        · exact hmixin x hxm
      · exact mem_names.mpr (.inr (.inl ⟨g, hg, hxg⟩))
  · exact hrules x (Node.mem_definedNamesAll.mpr ⟨rule, hrule, hxr⟩)

/-- **No step of evaluation brings new names into reach.** -/
theorem Enters.names_subset (hd : d.Plain) (h : Enters d s t) : t.names ⊆ s.names := by
  cases h with
  | inside h => exact h.names_subset
  | definition h => exact h.names_subset
  | rule h hrule => exact h.names_subset hd hrule

end Config

end LessCss
