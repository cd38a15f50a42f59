import LessCss.Proofs.Evaluation.Plain
import LessCss.Proofs.Units.Reduced

/-!
# Which operations are carried out

A number takes the place of sums, products and negatives where the math mode has them carried out.
That depends on the operator and on how many parentheses that count are around it, and the context
keeps count of those on the way down.  Here the count is made without evaluating anything:
`Arithmetic.operators` lists all operators of an arithmetic value, each with the parentheses around
it, and `MathMode.enables` tells which of them are carried out.

The value becomes a number just if all of them are (`Arithmetic.eval_isNumber_iff`): an operator
whose operands are not numbers is left as it is, and parentheses that are kept are no number either,
so that one operator that is not carried out prevents everything around it.
-/

namespace LessCss

open Evaluation

/-! ## Math modes -/

namespace MathMode

/-- Whether parentheses count; `operand` tells whether they are around an operand. -/
def counts (mode : MathMode) (operand : Bool) : Bool := mode != .strictLegacy || !operand

/-- Whether an operator is carried out under some parentheses that count. -/
def enables : MathMode → Operator → Nat → Bool
  | always, _, _ => true
  | parensDivision, op, depth => op != .div || 0 < depth
  | parens, _, depth | strictLegacy, _, depth => 0 < depth

end MathMode

/-- With math on, an operator is carried out just if the mode enables it at the depth of
parentheses. -/
theorem Context.computes_some {c : Context} (hon : c.mathOn = true) (op : Operator) :
    c.computes (some op) = c.math.enables op c.parens := by
  rw [computes, hon, Bool.true_and]
  cases c.math with
  | always | parens | strictLegacy => rfl
  | parensDivision => cases op <;> rfl

/-! ## Arithmetic values -/

/-- Numbers joined by operators, with negatives and parentheses. -/
inductive Arithmetic
  | number (d : Dimension)
  | operation (op : Operator) (left right : Arithmetic) (spaced : Bool) (offset : Nat)
  | negative (inner : Arithmetic)
  /-- Parentheses; `operand` tells whether they are around an operand. -/
  | group (inner : Arithmetic) (operand tight : Bool)

namespace Arithmetic

/-- The value as a node. -/
def toNode : Arithmetic → Node
  | number d => .dimension d
  | operation op left right spaced offset => .operation op left.toNode right.toNode spaced offset
  | negative inner => .negative inner.toNode
  | group inner operand tight => .expression [inner.toNode] true operand tight

/-- All operators of a value, each with the number of parentheses around it that count.  A negative
is a product. -/
def operators (mode : MathMode) (depth : Nat) : Arithmetic → List (Operator × Nat)
  | number _ => []
  | operation op left right _ _ =>
    (op, depth) :: (left.operators mode depth ++ right.operators mode depth)
  | negative inner => (.mul, depth) :: inner.operators mode depth
  | group inner operand _ => inner.operators mode (if mode.counts operand then depth + 1 else depth)

/-- All operators of a value are carried out. -/
def Enabled (mode : MathMode) (depth : Nat) (t : Arithmetic) : Prop :=
  ∀ x ∈ t.operators mode depth, mode.enables x.1 x.2 = true

/-- What a value amounts to, its operators being carried out from the inside out. -/
def result : Arithmetic → Except Error Dimension
  | number d => .ok d
  | operation op left right _ _ => do Dimension.operate op false (← left.result) (← right.result)
  | negative inner => do Dimension.operate .mul false (.ofFloat (-1)) (← inner.result)
  | group inner _ _ => inner.result

section Enabled

variable {mode : MathMode} {depth : Nat} {op : Operator} {left right inner : Arithmetic}
  {spaced operand tight : Bool}
  {offset : Nat}

theorem enabled_number (d : Dimension) : (number d).Enabled mode depth := nofun

/-- An operation is carried out entirely if its operator is, and both of its sides are. -/
theorem enabled_operation :
    (operation op left right spaced offset).Enabled mode depth ↔
      mode.enables op depth = true ∧ left.Enabled mode depth ∧ right.Enabled mode depth := by
  rw [Enabled, operators, List.forall_mem_cons, List.forall_mem_append]
  rfl

/-- A sign counts as a multiplication. -/
theorem enabled_negative :
    (negative inner).Enabled mode depth ↔
    mode.enables .mul depth = true ∧ inner.Enabled mode depth := by
  rw [Enabled, operators, List.forall_mem_cons]
  rfl

end Enabled

/-! ## Numbers and what is left -/

/-- With units that may differ, every operator has a result. -/
theorem operate_lenient (op : Operator) (a b : Dimension) :
    ∃ d, Dimension.operate op false a b = .ok d := by
  cases op with
  | add | sub => exact Dimension.exists_combine _ a b
  | mul | div => exact ⟨_, rfl⟩

/-- How a value ends: as a number, which is the result, if all operators are carried out, and else
as something that is no number. -/
inductive Ends (mode : MathMode) (depth : Nat) (t : Arithmetic) : Node → Prop
  | number {d : Dimension} (henabled : t.Enabled mode depth) (hresult : t.result = .ok d) :
      Ends mode depth t (.dimension d)
  | left {v : Node} (hblocked : ¬ t.Enabled mode depth) (hv : v.dimension? = none) :
    Ends mode depth t v

variable {c : Context} {t left right inner : Arithmetic} {v w : Node}

/-- A value that ends as foreseen is a number just if all operators are carried out. -/
theorem Ends.isNumber_iff (h : t.Ends c.math c.parens v) :
    (∃ d, v = .dimension d) ↔ t.Enabled c.math c.parens := by
  cases h with
  | number henabled _ => exact iff_of_true ⟨_, rfl⟩ henabled
  | left hblocked hv => exact iff_of_false (fun ⟨d, hd⟩ => by rw [hd] at hv; cases hv) hblocked

/-- A value that ends in a number ends in the number computed bottom-up. -/
theorem Ends.result_eq {mode : MathMode} {depth : Nat} {d : Dimension}
    (h : t.Ends mode depth (.dimension d)) :
    t.result = .ok d := by
  cases h with
  | number _ hresult => exact hresult
  | left _ hv => cases hv

/-- An operation that is not carried out is left. -/
theorem operation_left {op : Operator} {spaced : Bool} {offset : Nat}
    (h : c.computes (some op) = false ∨ v.dimension? = none ∨ w.dimension? = none) :
    Evaluation.operation c op v w spaced offset = .ok (.operation op v w spaced offset) := by
  unfold Evaluation.operation
  split
  · next hcomputes =>
    rcases h with h | h | h
    · exact Bool.noConfusion (hcomputes.symm.trans h)
    · cases h
    · cases h
  · rfl

/-- A negative that is not carried out is left. -/
theorem negative_left (h : c.computes (some .mul) = false ∨ v.dimension? = none) :
    Evaluation.negative c v = .ok (.negative v) := by
  unfold Evaluation.negative
  split
  · next hcomputes =>
    rcases h with h | h
    · exact Bool.noConfusion (hcomputes.symm.trans h)
    · cases h
  · rfl

/-- An operation becomes a number just if its operands do and its own operator is carried out. -/
theorem operation_ends (hon : c.mathOn = true) (hlenient : c.style.strict = false) (op : Operator)
    (spaced : Bool) (offset : Nat) (hleft : left.Ends c.math c.parens v)
    (hright : right.Ends c.math c.parens w) :
    ∃ u, Evaluation.operation c op v w spaced offset = .ok u ∧
      (operation op left right spaced offset).Ends c.math c.parens u := by
  have hcomputes := Context.computes_some hon op
  by_cases hop : c.math.enables op c.parens = true
  · cases hleft with
    | @number a hleft hleft_result =>
      cases hright with
      | @number b hright hright_result =>
        obtain ⟨d, hd⟩ := operate_lenient op a b
        refine ⟨.dimension d, ?_, .number (enabled_operation.mpr ⟨hop, hleft, hright⟩) ?_⟩
        · simp only [Evaluation.operation, hcomputes, hop, hlenient, hd]
          rfl
        · rw [result, hleft_result, hright_result]
          exact hd
      | left hblocked hw =>
        exact ⟨_, operation_left (.inr (.inr hw)),
          .left (fun h => hblocked (enabled_operation.mp h).2.2) rfl⟩
    | left hblocked hv =>
      exact ⟨_, operation_left (.inr (.inl hv)),
        .left (fun h => hblocked (enabled_operation.mp h).2.1) rfl⟩
  · rw [Bool.eq_false_iff.mpr hop] at hcomputes
    exact ⟨_, operation_left (.inl hcomputes), .left (fun h => hop (enabled_operation.mp h).1) rfl⟩

/-- A negative becomes a number just if what it is of does and products are carried out. -/
theorem negative_ends (hon : c.mathOn = true) (hlenient : c.style.strict = false)
    (hinner : inner.Ends c.math c.parens v) :
    ∃ u, Evaluation.negative c v = .ok u ∧ (negative inner).Ends c.math c.parens u := by
  have hcomputes := Context.computes_some hon .mul
  by_cases hop : c.math.enables .mul c.parens = true
  · cases hinner with
    | @number d hinner hresult =>
      obtain ⟨e, he⟩ := operate_lenient .mul (.ofFloat (-1)) d
      refine ⟨.dimension e, ?_, .number (enabled_negative.mpr ⟨hop, hinner⟩) ?_⟩
      · simp only [Evaluation.negative, hcomputes, hop, hlenient, he]
        rfl
      · rw [result, hresult]
        exact he
    | left hblocked hv =>
      exact ⟨_, negative_left (.inr hv), .left (fun h => hblocked (enabled_negative.mp h).2) rfl⟩
  · rw [Bool.eq_false_iff.mpr hop] at hcomputes
    exact ⟨_, negative_left (.inl hcomputes), .left (fun h => hop (enabled_negative.mp h).1) rfl⟩

/-- Parentheses around a number are dropped, and those around anything else do not make it a
number. -/
theorem group_ends {operand tight : Bool} (double : Bool)
    (hinner : inner.Ends (insideRow c true operand).math
      (insideRow c true operand).parens v) :
    (group inner operand tight).Ends c.math c.parens (keepParens c true operand double v) := by
  have hinside : (insideRow c true operand).math = c.math ∧
      (insideRow c true operand).parens =
        if c.math.counts operand then c.parens + 1 else c.parens := by
    unfold insideRow
    rw [Bool.true_and]
    split <;> simp_all [MathMode.counts, Context.inParens]
  rw [hinside.1, hinside.2] at hinner
  cases hinner with
  | number henabled hresult =>
    rw [keepParens_dimension]
    exact .number henabled hresult
  | left hblocked hv =>
    refine .left hblocked ?_
    rcases keepParens_cases c true operand double v with hkeep | hkeep
    · rw [hkeep, hv]
    · rw [hkeep]
      rfl

/-! ## Evaluation -/

/-- Evaluation ends as is foreseen.  The induction goes down the value; the parentheses that count
grow on the way, so that it is over all contexts. -/
theorem eval_ends (d : Deeper) (t : Arithmetic) :
    ∀ {c : Context}, c.mathOn = true → c.style.strict = false →
    ∃ v, eval d c t.toNode = .ok (.one v) ∧ t.Ends c.math c.parens v := by
  induction t with
  | number number => exact fun _ _ => ⟨_, rfl, .number (enabled_number number) rfl⟩
  | operation op left right spaced offset ihleft ihright =>
    intro c hon hlenient
    obtain ⟨v, hv, hleft⟩ := ihleft hon hlenient
    obtain ⟨w, hw, hright⟩ := ihright hon hlenient
    obtain ⟨u, hu, hends⟩ := operation_ends hon hlenient op spaced offset hleft hright
    refine ⟨u, ?_, hends⟩
    rw [toNode, eval, hv, hw]
    simp only [bind, Except.bind, Yield.toNode, hu]
    rfl
  | negative inner ih =>
    intro c hon hlenient
    obtain ⟨v, hv, hinner⟩ := ih hon hlenient
    obtain ⟨u, hu, hends⟩ := negative_ends hon hlenient hinner
    refine ⟨u, ?_, hends⟩
    rw [toNode, eval, hv]
    simp only [bind, Except.bind, Yield.toNode, hu]
    rfl
  | group inner operand tight ih =>
    intro c hon hlenient
    have hinside : (insideRow c true operand).mathOn = true ∧
        (insideRow c true operand).style.strict = false := by
      unfold insideRow
      split <;> exact ⟨hon, hlenient⟩
    obtain ⟨v, hv, hinner⟩ := ih hinside.1 hinside.2
    refine ⟨_, ?_, group_ends (doublesParens (insideRow c true operand) inner.toNode) hinner⟩
    rw [toNode, eval, hv]
    rfl

/-- **Just the enabled operations are carried out.**  Where units may differ and outside of `calc`,
the evaluation of an arithmetic value succeeds.  It gives a number just if the math mode enables
each operator under the parentheses around it, those around the whole value (none at first) and
those inside that count.  The number is then what the operators make of the numbers, from the inside
out. -/
theorem eval_isNumber_iff (hon : c.mathOn = true) (hlenient : c.style.strict = false)
    (t : Arithmetic) :
    ∃ v, c.eval t.toNode = .ok (.one v) ∧
      ((∃ d, v = .dimension d) ↔ ∀ x ∈ t.operators c.math c.parens, c.math.enables x.1 x.2 = true) ∧
      ∀ d, v = .dimension d → t.result = .ok d := by
  obtain ⟨v, hv, hends⟩ := eval_ends (.within (c.bound [t.toNode])) t hon hlenient
  refine ⟨v, hv, hends.isNumber_iff, fun d hd => ?_⟩
  subst hd
  exact hends.result_eq

/-- Under the strictest mode the parentheses of `(1px + 2px) * 3` do not count, but those around all
of it do. -/
theorem eval_isNumber_iff_parens :
    let c := Context.ofOptions { math := .strictLegacy }
    let sum := operation .add (number (.ofAtom 1 "px")) (number (.ofAtom 2 "px")) true 5
    let product := operation .mul (group sum true false) (number (.ofFloat 3)) true 12
    c.mathOn = true ∧ c.style.strict = false ∧
      (∃ v, c.eval product.toNode = .ok (.one v) ∧ ∀ d, v ≠ .dimension d) ∧
      ∃ d, c.eval (group product false false).toNode = .ok (.one (.dimension d)) ∧ d.value = 9 := by
  intro c sum product
  refine ⟨rfl, rfl, ?_, ?_⟩
  · obtain ⟨v, hv, hnumber, -⟩ := eval_isNumber_iff (c := c) rfl rfl product
    refine ⟨v, hv, fun d hd => ?_⟩
    have henabled := hnumber.mp ⟨d, hd⟩
    exact absurd (henabled (.mul, 0) List.mem_cons_self) (by decide)
  · obtain ⟨v, hv, hnumber, hresult⟩ :=
      eval_isNumber_iff (c := c) rfl rfl (group product false false)
    obtain ⟨d, rfl⟩ := hnumber.mpr (by decide)
    have hvalue : (group product false false).result.toOption.map Dimension.value = some 9 := by
      decide +kernel
    rw [hresult d rfl] at hvalue
    exact ⟨d, hv, Option.some.inj hvalue⟩

end Arithmetic

end LessCss
