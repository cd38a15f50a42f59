import LessCss.Proofs.Nesting.Evaluated

/-!
# Contexts in which values are evaluated alike

A value looks at little of its context: at what decides which operators are carried out, at the
variables that it asks for, at whether units are strict, and at the style only where the text of a
value is written into another text (`Node.writes`).  Two contexts that agree on this for all values
of a class (`Context.Alike`) give every value of the class the same result, be it a value or an
error (`Context.eval_alike`).

The two may also differ in whether units are strict.  Then the results are related as those of sums
are, if the relation is one that computations keep step by step (`Evaluation.eval_akin`).

The two evaluations may differ in their bounds, as the scopes of the two contexts may be of
different size. So the claim is first proved for a common bound and then for none.
-/

namespace LessCss

open Evaluation

/-- Whether a node writes the text of a value into its own text: into a hole, or as the name of a
unit. -/
def Node.writes : Node → Bool
  | .reference .. => false
  | .call name _ _ => name.map Char.toLower == "unit"
  | n => !n.asked.isEmpty

/-- A class of values that the parts of its members belong to. -/
structure ValueClass (N : Node → Prop) : Prop where
  isValue : ∀ {n}, N n → n.IsValue
  part : ∀ {n}, N n → ∀ m ∈ n.parts, N m

theorem ValueClass.isValueOf (P : Node → Prop) : ValueClass (Node.IsValueOf P) where
  isValue h := h.1
  part h := (Node.isValueOf_iff.mp h).2.2

/-- A relation between results that is kept step by step, and that holds of sums if a relation holds
of whether units are strict.  Bounds that are exhausted are exhausted in both. -/
structure Lockstep (R : (α : Type) → Except Error α → Except Error α → Prop)
    (S : Bool → Bool → Prop) : Prop where
  steps : Stepwise R
  unfinished : ∀ {α : Type}, R α (.error .unfinished) (.error .unfinished)
  sums : ∀ {strict strict' : Bool}, S strict strict' → ∀ op a b,
    R _ (Dimension.operate op strict a b) (Dimension.operate op strict' a b)

theorem Lockstep.eq : Lockstep (fun _ x y => x = y) (· = ·) := ⟨.eq, rfl, fun h _ _ _ => by rw [h]⟩

namespace Context

/-- Two contexts agree on all that the values of a class look at. -/
structure Alike (N : Node → Prop) (c c' : Context) : Prop where
  math : c.math = c'.math
  mathOn : c.mathOn = c'.mathOn
  inCalc : c.inCalc = c'.inCalc
  parens : c.parens = c'.parens
  pending : c.pending = c'.pending
  strict : c.style.strict = c'.style.strict
  style : c.style = c'.style ∨ ∀ n, N n → n.writes = false
  definition : ∀ n, N n → ∀ x ∈ n.asked, c.definition? x = c'.definition? x ∧
    ∀ v, c.definition? x = some v → N v

/-- Two contexts agree on all that the values of a class look at, except for whether units are
strict. -/
structure Akin (S : Bool → Bool → Prop) (N : Node → Prop) (c c' : Context) : Prop where
  math : c.math = c'.math
  mathOn : c.mathOn = c'.mathOn
  inCalc : c.inCalc = c'.inCalc
  parens : c.parens = c'.parens
  pending : c.pending = c'.pending
  strict : S c.style.strict c'.style.strict
  style : c.style = c'.style ∨ ∀ n, N n → n.writes = false
  definition : ∀ n, N n → ∀ x ∈ n.asked, c.definition? x = c'.definition? x ∧
    ∀ v, c.definition? x = some v → N v

/-- Two contexts are alike just if they are akin with equality as the relation of strictness. -/
theorem alike_iff {N : Node → Prop} {c c' : Context} : Alike N c c' ↔ Akin (· = ·) N c c' :=
  ⟨fun h => ⟨h.math, h.mathOn, h.inCalc, h.parens, h.pending, h.strict, h.style, h.definition⟩,
    fun h => ⟨h.math, h.mathOn, h.inCalc, h.parens, h.pending, h.strict, h.style, h.definition⟩⟩

namespace Akin

variable {S : Bool → Bool → Prop} {N : Node → Prop} {c c' : Context} (h : Akin S N c c')

include h

theorem computes (op : Option Operator) : c.computes op = c'.computes op := by
  unfold Context.computes
  rw [h.math, h.mathOn, h.parens]

theorem insideRow (parens operand : Bool) :
    Akin S N (insideRow c parens operand) (insideRow c' parens operand) := by
  unfold Evaluation.insideRow
  rw [h.math]
  split
  · exact ⟨h.math, h.mathOn, h.inCalc, congrArg (· + 1) h.parens, h.pending, h.strict, h.style,
      h.definition⟩
  · exact h

theorem inCall (isCalc : Bool) : Akin S N (c.inCall isCalc) (c'.inCall isCalc) :=
  ⟨h.math, rfl, congrArg (· || isCalc) h.inCalc, h.parens, h.pending, h.strict, h.style,
    h.definition⟩

theorem forProperty (name : String) : Akin S N (forProperty c name) (forProperty c' name) := by
  unfold Evaluation.forProperty
  rw [h.math]
  split
  · exact ⟨rfl, h.mathOn, h.inCalc, h.parens, h.pending, h.strict, h.style, h.definition⟩
  · exact h

/-- Contexts that are akin keep the same parentheses. -/
theorem keepParens (parens operand double : Bool) (result : Node) :
    keepParens c parens operand double result = keepParens c' parens operand double result := by
  unfold Evaluation.keepParens
  rw [h.computes]

theorem doublesParens (item : Node) : doublesParens c item = doublesParens c' item := by
  unfold Evaluation.doublesParens
  rw [h.inCalc]

variable {R : (α : Type) → Except Error α → Except Error α → Prop} (hR : Lockstep R S)

include hR

theorem operation (op : Operator) (left right : Node) (spaced : Bool) (offset : Nat) :
    R _ (operation c op left right spaced offset) (operation c' op left right spaced offset) := by
  unfold Evaluation.operation
  rw [h.computes]
  split
  · exact hR.steps.map (hR.steps.locate offset (hR.sums h.strict op _ _)) fun _ => .ok _
  · exact hR.steps.ok _

theorem negative (value : Node) : R _ (negative c value) (negative c' value) := by
  unfold Evaluation.negative
  rw [h.computes]
  split
  · exact hR.steps.map (hR.sums h.strict .mul _ _) fun _ => .ok _
  · exact hR.steps.ok _

end Akin

theorem Alike.forProperty {N : Node → Prop} {c c' : Context} (h : Alike N c c') (name : String) :
    Alike N (forProperty c name) (forProperty c' name) :=
  alike_iff.mpr ((alike_iff.mp h).forProperty name)

end Context

namespace Evaluation

open Context

variable {R : (α : Type) → Except Error α → Except Error α → Prop} {S : Bool → Bool → Prop}
  {N : Node → Prop}
  {d d' : Deeper} {c c' : Context}

/-- Only a change of unit writes a text. -/
theorem builtin_style {s s' : Style} {name : String} (h : (name.map Char.toLower == "unit") = false)
    (args : List Node) : builtin s name args = builtin s' name args := by
  unfold builtin
  split
  · rfl
  · rfl
  · rename_i hunit
    rw [hunit] at h
    cases h
  · rfl
  · rfl

/-- Two ways to evaluate definitions agree on the values of a class. -/
def AgreeOn (N : Node → Prop) (d d' : Deeper) : Prop :=
  ∀ c c' n, Alike N c c' → N n → d.node c n = d'.node c' n

/-- Two ways to evaluate definitions are related on the values of a class. -/
def AkinOn (R : (α : Type) → Except Error α → Except Error α → Prop) (S : Bool → Bool → Prop)
    (N : Node → Prop) (d d' : Deeper) : Prop :=
  ∀ c c' n, Akin S N c c' → N n → R _ (d.node c n) (d'.node c' n)

/-- Agreeing at deeper levels is being akin there with equality as the relation of results. -/
theorem AgreeOn.akinOn (h : AgreeOn N d d') : AkinOn (fun _ x y => x = y) (· = ·) N d d' :=
  fun c c' n hc hn =>
  h c c' n (alike_iff.mpr hc) hn

/-- A variable has related values in contexts that are akin. -/
theorem reference_akin (hR : Lockstep R S) (hd : AkinOn R S N d d') (h : Akin S N c c') {n : Node}
    (hn : N n) {name : String} (hname : name ∈ n.asked) (offset : Nat) :
    R _ (reference d c name offset) (reference d' c' name offset) := by
  obtain ⟨hsame, hclass⟩ := h.definition n hn name hname
  unfold reference
  rw [← hsame]
  cases hfound : c.definition? name with
  | none => exact hR.steps.refl (.error nofun)
  | some v =>
    have hv := hclass v hfound
    dsimp only
    unfold Context.inVariable
    rw [h.pending]
    split
    · exact hR.steps.refl (.error nofun)
    · refine hd _ _ v ?_ hv
      exact ⟨h.math, h.mathOn, h.inCalc, h.parens, rfl, h.strict, h.style, h.definition⟩

/-- A text whose holes a node of the class asks for. -/
theorem fill_akin (hR : Lockstep R S) (hd : AkinOn R S N d d') (h : Akin S N c c') {n : Node}
    (hn : N n) {text : String} (htext : Text.asked text ⊆ n.asked)
    (hwrites : n.writes = false → Text.asked text = []) :
    R _ (fill d c text) (fill d' c' text) := by
  refine hR.steps.map (hR.steps.mapM fun part hpart => ?_) fun _ => .ok _
  cases part with
  | plain char => exact hR.steps.ok _
  | hole name offset =>
    have hasked : "@" ++ String.ofList name ∈ Text.asked text :=
      List.mem_filterMap.mpr ⟨_, hpart, rfl⟩
    have hstyle : c.style = c'.style := by
      rcases h.style with hstyle | hquiet
      · exact hstyle
      · rw [hwrites (hquiet n hn)] at hasked
        cases hasked
    unfold fillPart
    rw [hstyle]
    exact hR.steps.map (reference_akin hR hd h hn (htext hasked) offset) fun v =>
      .of_ordinary (bareText_fails c'.style v)

mutual
/-- By induction on the node: values have related results in contexts that are akin. -/
theorem eval_akin (hR : Lockstep R S) (hN : ValueClass N) (hd : AkinOn R S N d d') :
    ∀ (c c' : Context) (n : Node), Akin S N c c' → N n → R _ (eval d c n) (eval d' c' n)
  | _, _, .dimension _, _, _ => hR.steps.ok _
  | c, c', .expression [] parens operand tight, h, _ => by
    simp only [eval, h.keepParens]
    exact hR.steps.ok _
  | c, c', .expression [item] parens operand _, h, hn => by
    have hitem :=
      eval_akin hR hN hd _ _ item (h.insideRow parens operand) (hN.part hn _ List.mem_cons_self)
    simp only [eval, h.keepParens, (h.insideRow parens operand).doublesParens]
    exact hR.steps.map hitem fun _ => .ok _
  | c, c', .expression (item :: next :: items) parens operand tight, h, hn => by
    have hitems := evalSplice_akin hR hN hd _ _ (item :: next :: items) (h.insideRow parens operand)
        (hN.part hn)
    simp only [eval, h.keepParens]
    exact hR.steps.map hitems fun _ => .ok _
  | _, _, .list [], _, _ => hR.steps.ok _
  | c, c', .list [item], h, hn =>
    hR.steps.map (eval_akin hR hN hd c c' item h (hN.part hn _ List.mem_cons_self)) fun _ => .ok _
  | c, c', .list (item :: next :: items), h, hn =>
    hR.steps.map (evalEach_akin hR hN hd c c' (item :: next :: items) h (hN.part hn)) fun _ => .ok _
  | c, c', .paren inner, h, hn =>
    hR.steps.map (eval_akin hR hN hd c c' inner h (hN.part hn _ List.mem_cons_self)) fun _ => .ok _
  | _, _, .keyword _, _, _ => hR.steps.ok _
  | c, c', .quoted quote text escaped, h, hn => by
    have hfill : R _ (fill d c text) (fill d' c' text) :=
      fill_akin hR hd h hn (List.Subset.refl _) fun hw => by
        simpa [Node.writes, Node.asked] using hw
    exact hR.steps.map hfill fun _ => .ok _
  | c, c', .url text, h, hn => by
    have hfill : R _ (fill d c text) (fill d' c' text) :=
      fill_akin hR hd h hn (List.Subset.refl _) fun hw => by
        simpa [Node.writes, Node.asked] using hw
    exact hR.steps.map hfill fun _ => .ok _
  | c, c', .reference name offset, h, hn =>
    hR.steps.map (reference_akin hR hd h hn (List.mem_singleton_self name) offset) fun _ => .ok _
  | c, c', .operation op left right spaced offset, h, hn => by
    refine hR.steps.bind (eval_akin hR hN hd c c' left h (hN.part hn left List.mem_cons_self))
      fun l _ => ?_
    refine hR.steps.bind (eval_akin hR hN hd c c' right h (hN.part hn right (.tail _ (.head _))))
      fun r _ => ?_
    exact hR.steps.map (h.operation hR op l.toNode r.toNode spaced offset) fun _ => .ok _
  | c, c', .negative inner, h, hn => by
    refine hR.steps.bind (eval_akin hR hN hd c c' inner h (hN.part hn inner List.mem_cons_self))
      fun v _ => ?_
    exact hR.steps.map (h.negative hR v.toNode) fun _ => .ok _
  | c, c', .call name args offset, h, hn => by
    refine hR.steps.bind (evalEach_akin hR hN hd _ _ args (h.inCall (isCalc name)) (hN.part hn))
      fun values _ => ?_
    have hbuiltin : builtin c.style name values = builtin c'.style name values := by
      rcases h.style with hstyle | hquiet
      · rw [hstyle]
      · exact builtin_style (hquiet _ hn) values
    rw [hbuiltin]
    exact hR.steps.map (hR.steps.refl (.of_ordinary (builtin_fails c'.style name values)))
      fun _ => .ok _
  | _, _, .comment .., _, hn | _, _, .declaration .., _, hn | _, _, .selector _, _, hn
  | _, _, .ruleset .., _, hn | _, _, .atRule .., _, hn | _, _, .media .., _, hn
  | _, _, .importRule .., _, hn | _, _, .mixin .., _, hn | _, _, .mixinCall .., _, hn
  | _, _, .argument .., _, hn => (hN.isValue hn).elim
theorem evalEach_akin (hR : Lockstep R S) (hN : ValueClass N) (hd : AkinOn R S N d d') :
    ∀ (c c' : Context) (nodes : List Node), Akin S N c c' → (∀ n ∈ nodes, N n) →
    R _ (evalEach d c nodes) (evalEach d' c' nodes)
  | _, _, [], _, _ => hR.steps.ok _
  | c, c', node :: nodes, h, hn => by
    obtain ⟨hnode, hnodes⟩ := List.forall_mem_cons.mp hn
    refine hR.steps.bind (eval_akin hR hN hd c c' node h hnode) fun _ _ => ?_
    exact hR.steps.map (evalEach_akin hR hN hd c c' nodes h hnodes) fun _ => .ok _
theorem evalSplice_akin (hR : Lockstep R S) (hN : ValueClass N) (hd : AkinOn R S N d d') :
    ∀ (c c' : Context) (nodes : List Node), Akin S N c c' → (∀ n ∈ nodes, N n) →
    R _ (evalSplice d c nodes) (evalSplice d' c' nodes)
  | _, _, [], _, _ => hR.steps.ok _
  | c, c', node :: nodes, h, hn => by
    obtain ⟨hnode, hnodes⟩ := List.forall_mem_cons.mp hn
    refine hR.steps.bind (eval_akin hR hN hd c c' node h hnode) fun _ _ => ?_
    exact hR.steps.map (evalSplice_akin hR hN hd c c' nodes h hnodes) fun _ => .ok _
end

/-- A text whose holes a node of the class asks for, in contexts that agree. -/
theorem fill_alike (hd : AgreeOn N d d') (h : Alike N c c') {n : Node} (hn : N n) {text : String}
    (htext : Text.asked text ⊆ n.asked) (hwrites : n.writes = false → Text.asked text = []) :
    fill d c text = fill d' c' text := fill_akin .eq hd.akinOn (alike_iff.mp h) hn htext hwrites

/-- A value has the same result in contexts that are alike. -/
theorem eval_alike (hN : ValueClass N) (hd : AgreeOn N d d') (c c' : Context) (n : Node)
    (h : Alike N c c') (hn : N n) : eval d c n = eval d' c' n :=
  eval_akin .eq hN hd.akinOn c c' n (alike_iff.mp h) hn

end Evaluation

/-! ## Without bound -/

/-- What is evaluated within the same bound on both sides is akin, by induction on the bound. -/
theorem Deeper.within_akinOn {R : (α : Type) → Except Error α → Except Error α → Prop}
    {S : Bool → Bool → Prop} (hR : Lockstep R S) {N : Node → Prop} (hN : ValueClass N) :
    ∀ k, AkinOn R S N (within k) (within k)
  | 0 => fun _ _ _ _ _ => hR.unfinished
  | k + 1 => fun c c' n hc hn =>
    hR.steps.map (Evaluation.eval_akin hR hN (within_akinOn hR hN k) c c' n hc hn) fun _ => .ok _

theorem Deeper.within_agreeOn {N : Node → Prop} (hN : ValueClass N) (k : Nat) :
    AgreeOn N (within k) (within k) :=
  fun c c' n hc hn => within_akinOn .eq hN k c c' n (Context.alike_iff.mp hc) hn

namespace Context

/-- A larger bound changes nothing. -/
theorem eval_within (c : Context) (n : Node) (k : Nat) :
    Evaluation.eval (.within (c.bound [n] + k)) c n = c.eval n := by
  have hrefines := Deeper.within_refines (c.bound [n]) k
  rcases eval_refines hrefines.1 hrefines.2 c n with hunfinished | heq
  · exact absurd hunfinished (c.eval_finished n)
  · exact heq.symm

/-- **Contexts that agree on what the values of a class look at give each of them the same
result.** -/
theorem eval_alike {N : Node → Prop} (hN : ValueClass N) {c c' : Context} {n : Node}
    (h : Alike N c c') (hn : N n) : c.eval n = c'.eval n := by
  have hbound := Evaluation.eval_alike hN
    (Deeper.within_agreeOn hN (c.bound [n] + c'.bound [n])) c c' n h hn
  rw [c.eval_within, Nat.add_comm, c'.eval_within] at hbound
  exact hbound

end Context

theorem Deeper.unbounded_agreeOn {N : Node → Prop} (hN : ValueClass N) :
    AgreeOn N .unbounded .unbounded := by
  intro c c' n h hn
  simp only [unbounded, Context.eval_alike hN h hn]

/-- The rules of a mixin are evaluated as without bound. -/
theorem Deeper.unbounded_rules (c : Context) (rules : List Node) :
    Deeper.unbounded.rules c rules = evalRules .unbounded c rules := by
  refine eq_of_return_eq (f := Ruleset.ofRules) (fun _ _ h => ?_)
    (Ruleset.eval_eq c (.ofRules rules))
  exact congrArg Ruleset.rules h

end LessCss
