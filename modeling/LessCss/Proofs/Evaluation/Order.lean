import LessCss.Proofs.Evaluation.Reach

/-!
# The order of definitions

Definitions take effect in their whole scope, so it does not matter where among the rules of a block
they stand. Two things together make this so.  A definition leaves nothing behind where it stands
(`Evaluation.evalSplice_others`), and of a scope evaluation sees only what names stand for, which
depends on the order of the definitions of each name alone (`Frame.lookup_values_ofRules`).  That
evaluation sees nothing else of the scopes around is shown for any two rows of scopes that define
the same (`Evaluation.eval_scoped`), and so for every sort of node: through nested scopes, holes in
texts, the rules of mixins and the defaults of their parameters.
-/

namespace LessCss

open Evaluation

/-! ## Rules in another order -/

namespace Node

/-- Whether a rule defines a variable. -/
def isDefinition : Node → Bool
  | declaration _ _ _ isVariable _ => isVariable
  | _ => false

/-- Whether a rule defines the variable of a given name. -/
def defines (name : String) : Node → Bool
  | declaration x _ _ isVariable _ => isVariable && x == name
  | _ => false

end Node

/-- The same rules in another order, in which only definitions of variables may have moved, and
those of one variable stay in their order. -/
structure Reordered (rules rules' : List Node) : Prop where
  perm : rules.Perm rules'
  others : rules.filter (!·.isDefinition) = rules'.filter (!·.isDefinition)
  definitions : ∀ name, rules.filter (·.defines name) = rules'.filter (·.defines name)

/-! ## What names stand for in a scope -/

namespace Frame

/-- A rule that does not define a variable leaves its value as it was. -/
theorem lookup_values_add {f : Frame} {rule : Node} {name : String}
    (h : rule.defines name = false) :
    (f.add rule).values.lookup name = f.values.lookup name := by
  unfold add
  split
  · rename_i x value important offset
    have hx : name ≠ x := by
      rintro rfl
      simp [Node.defines] at h
    show (f.values.put x value).lookup name = _
    rw [Bindings.lookup_put, if_neg hx]
  · rfl
  · split <;> rfl
  · rfl

/-- A definition of a variable gives it its value, whatever the scope. -/
theorem lookup_values_add_of_defines {f g : Frame} {rule : Node} {name : String}
    (h : rule.defines name = true) :
    (f.add rule).values.lookup name = (g.add rule).values.lookup name := by
  cases rule with
  | declaration x value important isVariable offset =>
    simp only [Node.defines, Bool.and_eq_true, beq_iff_eq] at h
    obtain ⟨rfl, rfl⟩ := h
    show (f.values.put x value).lookup x = (g.values.put x value).lookup x
    rw [Bindings.lookup_put, Bindings.lookup_put, if_pos rfl, if_pos rfl]
  | _ => cases h

/-- The value of a variable depends on the definitions of that variable alone. -/
theorem lookup_values_ofRules (rules : List Node) (name : String) :
    (ofRules rules).values.lookup name = (ofRules (rules.filter (·.defines name))).values.lookup
      name := by
  suffices key : ∀ (rules : List Node) (f g : Frame), f.values.lookup name = g.values.lookup name →
      (rules.foldl add f).values.lookup name =
        ((rules.filter (·.defines name)).foldl add g).values.lookup name from key rules {} {} rfl
  intro rules
  induction rules with
  | nil => exact fun _ _ h => h
  | cons rule rules ih =>
    intro f g h
    by_cases hdefines : rule.defines name = true
    · rw [List.filter_cons_of_pos hdefines, List.foldl_cons, List.foldl_cons]
      exact ih _ _ (lookup_values_add_of_defines hdefines)
    · rw [List.filter_cons_of_neg hdefines, List.foldl_cons]
      exact ih _ _ ((lookup_values_add (eq_false_of_ne_true hdefines)).trans h)

/-- The mixins of a scope depend on the rules that define no variable. -/
theorem mixins_ofRules (rules : List Node) :
    (ofRules rules).mixins = (ofRules (rules.filter (!·.isDefinition))).mixins := by
  suffices key : ∀ (rules : List Node) (f g : Frame), f.mixins = g.mixins →
      (rules.foldl add f).mixins = ((rules.filter (!·.isDefinition)).foldl add g).mixins from key
        rules {} {} rfl
  intro rules
  induction rules with
  | nil => exact fun _ _ h => h
  | cons rule rules ih =>
    intro f g h
    by_cases hdefinition : rule.isDefinition = true
    · rw [List.filter_cons_of_neg (by simp [hdefinition]), List.foldl_cons]
      refine ih _ _ (Eq.trans ?_ h)
      cases rule with
      | declaration x value important isVariable offset =>
        cases hdefinition
        rfl
      | _ => cases hdefinition
    · rw [List.filter_cons_of_pos (by simp [hdefinition]), List.foldl_cons, List.foldl_cons]
      refine ih _ _ ?_
      unfold add
      split
      · exact absurd rfl hdefinition
      · rw [h]
      · split
        · rw [h]
        · exact h
      · exact h

end Frame

/-! ## Scopes that define the same -/

/-- Two rows of scopes in which every name stands for the same. -/
structure SameDefinitions (fs gs : List Frame) : Prop where
  value : ∀ name, fs.findSome? (·.values.lookup name) = gs.findSome? (·.values.lookup name)
  mixin : ∀ name, fs.findSome? (·.mixins.lookup name) = gs.findSome? (·.mixins.lookup name)

namespace SameDefinitions

variable {fs gs : List Frame}

/-- A scope inside of all others. -/
theorem cons (h : SameDefinitions fs gs) (f : Frame) : SameDefinitions (f :: fs) (f :: gs) where
  value name := by rw [List.findSome?_cons, List.findSome?_cons, h.value]
  mixin name := by rw [List.findSome?_cons, List.findSome?_cons, h.mixin]

/-- The scopes of rules in different order. -/
theorem ofRules {rules rules' : List Node} (h : Reordered rules rules') (fs : List Frame) :
    SameDefinitions (.ofRules rules :: fs) (.ofRules rules' :: fs) where
  value name := by
    rw [List.findSome?_cons, List.findSome?_cons, Frame.lookup_values_ofRules,
      Frame.lookup_values_ofRules rules', h.definitions]
  mixin name := by
    rw [List.findSome?_cons, List.findSome?_cons, Frame.mixins_ofRules,
      Frame.mixins_ofRules rules', h.others]

end SameDefinitions

/-- The same place, with other scopes around. -/
def Context.scoped (c : Context) (frames : List Frame) : Context := { c with frames }

/-- Definitions are evaluated alike in scopes that define the same. -/
structure Deeper.Unscoped (d : Deeper) : Prop where
  node : ∀ (c : Context) (gs : List Frame) (n : Node), SameDefinitions c.frames gs →
    d.node (c.scoped gs) n = d.node c n
  rules : ∀ (c : Context) (gs : List Frame) (rules : List Node), SameDefinitions c.frames gs →
    d.rules (c.scoped gs) rules = d.rules c rules

namespace Evaluation

section Contexts

variable (c : Context) (gs : List Frame)

theorem insideRow_scoped (parens operand : Bool) :
    insideRow (c.scoped gs) parens operand = (insideRow c parens operand).scoped gs := by
  unfold insideRow
  show (if parens && (c.math != .strictLegacy || !operand) then _ else _) = _
  split <;> rfl

theorem forProperty_scoped (name : String) :
    forProperty (c.scoped gs) name = (forProperty c name).scoped gs := by
  unfold forProperty
  show (if name == "font" && c.math == .always then _ else _) = _
  split <;> rfl

theorem insideAtRule_scoped (name : String) :
    insideAtRule (c.scoped gs) name = (insideAtRule c name).scoped gs := by
  unfold insideAtRule
  split <;> rfl

end Contexts

variable {d : Deeper} {c : Context} {gs : List Frame}

/-- A variable sees nothing of the scopes but what they define. -/
theorem reference_scoped (hd : d.Unscoped) (h : SameDefinitions c.frames gs) (name : String)
    (offset : Nat) :
    reference d (c.scoped gs) name offset = reference d c name offset := by
  have hfound : (c.scoped gs).definition? name = c.definition? name := (h.value name).symm
  unfold reference
  rw [hfound]
  split
  · rfl
  · unfold Context.inVariable
    show (if c.pending.contains name then _ else _) >>= _ = _
    split
    · rfl
    · exact hd.node { c with pending := name :: c.pending } gs _ h

theorem fillPart_scoped (hd : d.Unscoped) (h : SameDefinitions c.frames gs) :
    fillPart d (c.scoped gs) = fillPart d c := by
  funext part
  cases part with
  | plain char => rfl
  | hole name offset =>
    rw [fillPart, fillPart, reference_scoped hd h]
    rfl

theorem fill_scoped (hd : d.Unscoped) (h : SameDefinitions c.frames gs) :
    fill d (c.scoped gs) = fill d c := by
  funext text
  rw [fill, fill, fillPart_scoped hd h]

mutual
theorem fillSelector_scoped (hd : d.Unscoped) (h : SameDefinitions c.frames gs) : ∀ s : Selector,
    fillSelector d (c.scoped gs) s = fillSelector d c s
  | .mk elements extending => by
    simp only [fillSelector, fillElements, fill_scoped hd h, fillTargets_scoped hd h extending]
theorem fillTargets_scoped (hd : d.Unscoped) (h : SameDefinitions c.frames gs) :
    ∀ xs : List (Selector × Bool), fillTargets d (c.scoped gs) xs = fillTargets d c xs
  | [] => rfl
  | (target, all) :: rest => by
    simp only [fillTargets, fillSelector_scoped hd h target, fillTargets_scoped hd h rest]
end

/-- A rule set, given that its rules are evaluated alike. -/
theorem ruleset_scoped (hd : d.Unscoped) (h : SameDefinitions c.frames gs)
    (selectors : List Selector) (root : Bool) {rules : Context → Except Error (List Node)}
    (hrules : ∀ joined, rules ((c.underSelectors joined).scoped gs) =
      rules (c.underSelectors joined))
    (hroot : rules (c.scoped gs) = rules c) :
    ruleset d (c.scoped gs) selectors root rules = ruleset d c selectors root rules := by
  have hfill : fillSelector d (c.scoped gs) = fillSelector d c := funext (fillSelector_scoped hd h)
  cases root with
  | true => simp only [ruleset, if_true, hroot]
  | false =>
    simp only [ruleset, Bool.false_eq_true, if_false, hfill]
    refine congrArg _ (funext fun own => ?_)
    exact congrArg (· >>= _) (hrules _)

/-- The rules that take the place of a call. -/
theorem expand_scoped (hd : d.Unscoped) (h : SameDefinitions c.frames gs) (m : Mixin)
    (name : String) (args values : List Node) (important : Bool) (offset : Nat) :
    expand d (c.scoped gs) m name args values important offset =
      expand d c m name args values important offset := by
  unfold expand
  refine congrArg _ (funext fun frame => ?_)
  unfold Context.inMixin
  show (if c.mixinDepth ≥ mixinDepthLimit then _ else _) >>= _ = _
  split
  · rfl
  · have hrules :=
      hd.rules ({ c with mixinDepth := c.mixinDepth + 1 }.inFrame frame) (frame :: gs) m.rules
      (h.cons frame)
    exact congrArg (fun x => x >>= fun rules =>
      pure (if important then makeAllImportant rules else rules)) hrules

mutual
/-- **Of the scopes around, evaluation sees only what names stand for.** -/
theorem eval_scoped (hd : d.Unscoped) : ∀ (c : Context) (gs : List Frame) (n : Node),
    SameDefinitions c.frames gs → eval d (c.scoped gs) n = eval d c n
  | _, _, .dimension _, _ => rfl
  | _, _, .expression [] _ _ _, _ => rfl
  | c, gs, .expression [item] parens operand tight, h => by
    have hitem := eval_scoped hd (insideRow c parens operand) gs item
      ((sameScope_insideRow c parens operand).frames.symm ▸ h)
    simp only [eval, insideRow_scoped, hitem]
    rfl
  | c, gs, .expression (item :: next :: items) parens operand tight, h => by
    have hitems := evalSplice_scoped hd (insideRow c parens operand) gs (item :: next :: items)
      ((sameScope_insideRow c parens operand).frames.symm ▸ h)
    simp only [eval, insideRow_scoped, hitems]
    rfl
  | _, _, .list [], _ => rfl
  | c, gs, .list [item], h => by simp only [eval, eval_scoped hd c gs item h]
  | c, gs, .list (item :: next :: items), h => by
    simp only [eval, evalEach_scoped hd c gs (item :: next :: items) h]
  | c, gs, .paren inner, h => by simp only [eval, eval_scoped hd c gs inner h]
  | _, _, .comment .., _ => rfl
  | _, _, .keyword _, _ => rfl
  | _, _, .quoted .., h => by simp only [eval, fill_scoped hd h]
  | _, _, .url _, h => by simp only [eval, fill_scoped hd h]
  | _, _, .reference .., h => by simp only [eval, reference_scoped hd h]
  | c, gs, .operation op left right spaced offset, h => by
    simp only [eval, eval_scoped hd c gs left h, eval_scoped hd c gs right h]
    rfl
  | c, gs, .negative inner, h => by
    simp only [eval, eval_scoped hd c gs inner h]
    rfl
  | c, gs, .call name args offset, h => by
    have hargs : evalEach d ((c.scoped gs).inCall (isCalc name)) args =
        evalEach d (c.inCall (isCalc name)) args :=
      evalEach_scoped hd (c.inCall (isCalc name)) gs args h
    simp only [eval, hargs]
    rfl
  | _, _, .declaration _ _ _ true _, _ => rfl
  | c, gs, .declaration name value important false offset, h => by
    have hvalue (filled : String) := eval_scoped hd (forProperty c filled) gs value
      ((sameScope_forProperty c filled).frames.symm ▸ h)
    simp only [eval, fill_scoped hd h, forProperty_scoped, hvalue]
  | _, _, .selector _, _ => rfl
  | c, gs, .ruleset selectors rules root, h => by
    have hrules (joined : List Selector) :=
      evalSplice_scoped hd ((c.underSelectors joined).inFrame (.ofRules rules))
        (.ofRules rules :: gs) rules (h.cons _)
    have hroot := evalSplice_scoped hd (c.inFrame (.ofRules rules)) (.ofRules rules :: gs) rules
      (h.cons _)
    rw [eval, eval, ruleset_scoped hd h selectors root hrules hroot]
  | c, gs, .atRule name header none, h => by simp only [eval, evalHeader_scoped hd c gs header h]
  | c, gs, .atRule name header (some rules), h => by
    have hrules :=
      evalSplice_scoped hd ((insideAtRule c name).inFrame (.ofRules rules))
        (.ofRules rules :: gs) rules
        (((sameScope_insideAtRule c name).frames.symm ▸
          h : SameDefinitions (insideAtRule c name).frames gs).cons _)
    simp only [eval, evalHeader_scoped hd c gs header h, insideAtRule_scoped]
    refine congrArg _ (funext fun header => ?_)
    exact congrArg (· >>= _) hrules
  | c, gs, .media features rules, h => by
    have hrules := evalSplice_scoped hd (c.inFrame (.ofRules rules)) (.ofRules rules :: gs) rules
      (h.cons _)
    simp only [eval, eval_scoped hd c gs features h]
    refine congrArg _ (funext fun features => ?_)
    exact congrArg (· >>= _) hrules
  | c, gs, .importRule path features options, h => by
    simp only [eval, eval_scoped hd c gs path h, evalHeader_scoped hd c gs features h]
  | _, _, .mixin .., _ => rfl
  | c, gs, .mixinCall name args important offset, h => by
    have hfound : (c.scoped gs).mixin? name = c.mixin? name := (h.mixin name).symm
    simp only [eval, hfound, evalEach_scoped hd c gs args h, expand_scoped hd h]
  | c, gs, .argument name value, h => by simp only [eval, eval_scoped hd c gs value h]
theorem evalEach_scoped (hd : d.Unscoped) : ∀ (c : Context) (gs : List Frame) (nodes : List Node),
    SameDefinitions c.frames gs → evalEach d (c.scoped gs) nodes = evalEach d c nodes
  | _, _, [], _ => rfl
  | c, gs, node :: nodes, h => by
    simp only [evalEach, eval_scoped hd c gs node h, evalEach_scoped hd c gs nodes h]
theorem evalSplice_scoped (hd : d.Unscoped) : ∀ (c : Context) (gs : List Frame) (nodes : List Node),
    SameDefinitions c.frames gs → evalSplice d (c.scoped gs) nodes = evalSplice d c nodes
  | _, _, [], _ => rfl
  | c, gs, node :: nodes, h => by
    simp only [evalSplice, eval_scoped hd c gs node h, evalSplice_scoped hd c gs nodes h]
theorem evalHeader_scoped (hd : d.Unscoped) :
    ∀ (c : Context) (gs : List Frame) (header : Option Node),
    SameDefinitions c.frames gs → evalHeader d (c.scoped gs) header = evalHeader d c header
  | _, _, none, _ => rfl
  | c, gs, some node, h => by simp only [evalHeader, eval_scoped hd c gs node h]
end

/-- A definition leaves nothing where it stands. -/
theorem evalSplice_others (d : Deeper) (c : Context) (rules : List Node) :
    evalSplice d c (rules.filter (!·.isDefinition)) = evalSplice d c rules := by
  induction rules with
  | nil => rfl
  | cons rule rules ih =>
    by_cases hdefinition : rule.isDefinition = true
    · rw [List.filter_cons_of_neg (by simp [hdefinition]), ih]
      cases rule with
      | declaration name value important isVariable offset =>
        cases hdefinition
        exact (bind_pure (evalSplice d c rules)).symm
      | _ => cases hdefinition
    · rw [List.filter_cons_of_pos (by simp [hdefinition]), evalSplice, evalSplice, ih]

end Evaluation

/-- At any depth, evaluation sees nothing of the scopes but what they define. -/
theorem Deeper.within_unscoped : ∀ k, (Deeper.within k).Unscoped
  | 0 => ⟨fun _ _ _ _ => rfl, fun _ _ _ _ => rfl⟩
  | k + 1 => by
    have ih := within_unscoped k
    refine ⟨fun c gs n h => ?_, fun c gs rules h => ?_⟩
    · show (do return (← eval (within k) (c.scoped gs) n).toNode) = _
      rw [eval_scoped ih c gs n h]
      rfl
    · exact evalSplice_scoped ih (c.inFrame (.ofRules rules)) (.ofRules rules :: gs) rules
        (h.cons _)

/-! ## The order of definitions -/

namespace Reordered

variable {rules rules' : List Node}

/-- Rules in another order have the same values or the same error, however definitions are
evaluated. -/
theorem evalRules_eq (h : Reordered rules rules') {d : Deeper} (hd : d.Unscoped) (c : Context) :
    evalRules d c rules = evalRules d c rules' := by
  have hscopes : evalSplice d (c.inFrame (.ofRules rules')) rules' =
      evalSplice d (c.inFrame (.ofRules rules)) rules' :=
    evalSplice_scoped hd (c.inFrame (.ofRules rules)) (.ofRules rules' :: c.frames) rules'
      (.ofRules h c.frames)
  calc evalRules d c rules
    _ = evalSplice d (c.inFrame (.ofRules rules)) (rules.filter (!·.isDefinition)) :=
      (evalSplice_others d _ rules).symm
    _ = evalSplice d (c.inFrame (.ofRules rules)) rules' := by rw [h.others, evalSplice_others]
    _ = evalRules d c rules' := hscopes.symm

/-- Reordering rules as allowed leaves the bound on the depth as it is. -/
theorem bound_eq (h : Reordered rules rules') (c : Context) : c.bound rules = c.bound rules' := by
  have hnames (nodes : List Node) :
      Node.definedNamesAll nodes = nodes.flatMap Node.definedNames := by
    induction nodes with
    | nil => rfl
    | cons node nodes ih => rw [Node.definedNamesAll, List.flatMap_cons, ih]
  have hlength : (Node.definedNamesAll rules).length = (Node.definedNamesAll rules').length := by
    rw [hnames, hnames]
    exact (h.perm.flatMap_right _).length_eq
  rw [Context.bound, Context.bound, hlength]

end Reordered

/-- **The order of definitions does not matter.**  If the definitions of variables among some rules
are moved, the definitions of each variable staying in their order, and all other rules stay in
theirs, then the rules have the same values or the same error in any context: be they those of a
mixin, for any bound on the definitions inside of each other, or those of a rule set or a whole
stylesheet. -/
theorem Ruleset.eval_reordered {rules rules' : List Node} (h : Reordered rules rules')
    (c : Context) :
    (∀ k, evalRules (.within k) c rules = evalRules (.within k) c rules') ∧
      ∀ selectors root, (Ruleset.mk selectors rules root).eval c =
        (Ruleset.mk selectors rules' root).eval c := by
  refine ⟨fun k => h.evalRules_eq (Deeper.within_unscoped k) c, fun selectors root => ?_⟩
  have hrules (inside : Context) : evalRules (.within (c.bound rules')) inside rules =
      evalRules (.within (c.bound rules')) inside rules' :=
    h.evalRules_eq (Deeper.within_unscoped _) inside
  simp only [Ruleset.eval, h.bound_eq c, hrules]

/-- A definition behind its use that is moved before it, past one that refers to it. -/
theorem Ruleset.eval_reordered_forward :
    let use := Node.declaration "w" (.reference "@a" 0) false false 0
    let a := Node.declaration "@a" (.reference "@b" 0) false true 0
    let b := Node.declaration "@b" (.keyword "k") false true 0
    Reordered [use, a, b] [b, use, a] ∧
      (∀ k, evalRules (.within k) (.ofOptions {}) [use, a, b] = evalRules (.within k)
        (.ofOptions {}) [b, use, a]) ∧
      ∀ selectors root, (Ruleset.mk selectors [use, a, b] root).eval (.ofOptions {}) =
        (Ruleset.mk selectors [b, use, a] root).eval (.ofOptions {}) := by
  intro use a b
  have h : Reordered [use, a, b] [b, use, a] := by
    refine ⟨?_, rfl, fun name => ?_⟩
    · show ([use, a] ++ [b]).Perm ([b] ++ [use, a])
      exact List.perm_append_comm
    · by_cases hname : "@a" = name
      · subst hname
        rfl
      · have ha : a.defines name = false := beq_false_of_ne hname
        have huse : use.defines name = false := rfl
        simp [List.filter_cons, ha, huse]
  exact ⟨h, eval_reordered h (.ofOptions {})⟩

end LessCss
