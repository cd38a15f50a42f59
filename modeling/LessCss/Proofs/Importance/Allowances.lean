import LessCss.Proofs.Evaluation.Standards
import Mathlib.Algebra.Order.BigOperators.Group.List
import Mathlib.Data.ENat.Basic

/-!
# How often a value says `!important`

A variable that is defined with `!important` holds the word as part of its value, and it goes
wherever the variable is used.  An *allowance* foresees how often the value of each variable may say
it, and which mixins may be called with `!important` (`Allowance`).  Counting each variable for what
it may say (`Node.marks`), a value never says the word more often after evaluation than before it
(`Evaluation.eval_marks`), if all definitions keep to the allowance (`thrifty`).
-/

namespace LessCss

open Evaluation

namespace Node

mutual
/-- How often a value says `!important`, if each variable says it as often as a weight tells. -/
def marks (w : String → ℕ∞) : Node → ℕ∞
  | keyword text => if text = "!important" then 1 else 0
  | reference name _ => w name
  | expression items _ _ _ => marksOf w items
  | list items => marksOf w items
  | paren inner => marks w inner
  | operation _ left right _ _ => marks w left + marks w right
  | negative inner => marks w inner
  | call _ args _ => marksOf w args
  | _ => 0
/-- How often a row of values says `!important`. -/
def marksOf (w : String → ℕ∞) : List Node → ℕ∞
  | [] => 0
  | node :: nodes => marks w node + marksOf w nodes
end

/-- What a value says by itself, apart from its parts. -/
def ownMarks (w : String → ℕ∞) : Node → ℕ∞
  | keyword text => if text = "!important" then 1 else 0
  | reference name _ => w name
  | _ => 0

variable {w w' : String → ℕ∞}

/-- What a row says is the sum of what its values say. -/
theorem marksOf_eq_sum (nodes : List Node) : marksOf w nodes = (nodes.map (marks w)).sum := by
  induction nodes with
  | nil => rfl
  | cons node nodes ih => rw [marksOf, ih, List.map_cons, List.sum_cons]

/-- A value says what it says by itself and what its parts say. -/
theorem marks_eq {n : Node} (h : n.isValueSort) :
    n.marks w = n.ownMarks w + (n.parts.map (marks w)).sum := by
  cases n with
  | expression | list | call => simp [marks, ownMarks, parts, marksOf_eq_sum]
  | paren | negative | operation | dimension | keyword | quoted | url
  | reference => simp [marks, ownMarks, parts]
  | _ => cases h

/-- Saying more in variables is saying no less in a node. -/
theorem ownMarks_mono (h : ∀ x, w x ≤ w' x) (n : Node) : n.ownMarks w ≤ n.ownMarks w' := by
  cases n with
  | reference name => exact h name
  | _ => exact le_rfl

/-- The more the variables say, the more a value does. -/
theorem IsValue.marks_mono (h : ∀ x, w x ≤ w' x) {n : Node} (hn : n.IsValue) :
    n.marks w ≤ n.marks w' := by
  induction n using induction_parts with
  | step n ih =>
    obtain ⟨hsort, hparts⟩ := isValue_iff.mp hn
    rw [marks_eq hsort, marks_eq hsort]
    exact add_le_add (ownMarks_mono h n) (List.sum_le_sum fun part hpart =>
      ih part hpart (hparts part hpart))

/-- A node says `!important` by itself just if it is that word. -/
theorem ownMarks_eq_zero_iff (n : Node) : n.ownMarks 0 = 0 ↔ n ≠ keyword "!important" := by
  cases n with
  | keyword text =>
    by_cases h : text = "!important" <;> simp [ownMarks, h]
  | _ => simp [ownMarks]

/-- A value says nothing without its variables just if the word does not occur in it. -/
theorem IsValue.marks_eq_zero_iff {n : Node} (hn : n.IsValue) :
    n.marks 0 = 0 ↔ ¬(keyword "!important").OccursIn n := by
  induction n using induction_parts with
  | step n ih =>
    obtain ⟨hsort, hparts⟩ := isValue_iff.mp hn
    rw [marks_eq hsort, add_eq_zero, ownMarks_eq_zero_iff, List.sum_eq_zero_iff,
      List.forall_mem_map]
    constructor
    · rintro ⟨hself, hnone⟩ h
      cases h with
      | self => exact hself rfl
      | inside hpart h => exact (ih _ hpart (hparts _ hpart)).mp (hnone _ hpart) h
    · intro h
      refine ⟨fun hself => h (hself ▸ .self), fun part hpart => ?_⟩
      exact (ih part hpart (hparts part hpart)).mpr fun hoccurs => h (.inside hpart hoccurs)

theorem marksOf_append (nodes nodes' : List Node) :
    marksOf w (nodes ++ nodes') = marksOf w nodes + marksOf w nodes' := by
  simp only [marksOf_eq_sum, List.map_append, List.sum_append]

theorem marksOf_toList (y : Yield) : marksOf w y.toList = y.toNode.marks w := by
  cases y with
  | one node => rw [Yield.toList, marksOf, marksOf, add_zero, Yield.toNode]
  | many nodes => rfl
  | nothing => rfl

/-- Parentheses that are kept say nothing. -/
theorem marks_keepParens (c : Context) (parens operand double : Bool) (n : Node) :
    (keepParens c parens operand double n).marks w = n.marks w := by
  rcases keepParens_cases c parens operand double n with h | h
  · rw [h]
  · rw [h, marks]

end Node

/-- How often the values of variables and those of arguments may say `!important`, and which mixins
may be called with it.  The variable that holds all arguments may say it as often as it likes,
unless no argument may. -/
structure Allowance where
  value : String → ℕ∞
  argument : ℕ∞
  calls : List String
  all : argument = 0 ∨ value "@arguments" = ⊤

namespace Node

variable (A : Allowance)

/-- Whether a node neither says `!important` in a property nor calls a mixin that must not be called
with it. -/
def saysNothing : Node → Bool
  | declaration _ value _ false _ => value.marks A.value = 0
  | mixinCall name _ _ _ => A.calls.contains name
  | _ => true

/-- Whether a node keeps to an allowance: a property says `!important` at most once, if it is marked
with it not at all in its value; definitions and arguments say it no more often than they may; and a
mixin that may be called with it says it nowhere. -/
def keepsTo : Node → Bool
  | declaration name value _ true _ => value.marks A.value ≤ A.value name
  | declaration _ value important false _ => value.marks A.value + (if important then 1 else 0) ≤ 1
  | ruleset selectors rules _ =>
    (Selector.callKey? selectors).all fun key =>
      !A.calls.contains key || allOf (saysNothing A) rules
  | mixin name params _ rules =>
    (params.all fun p => p.1.all (A.argument ≤ A.value ·) &&
      p.2.all (·.marks A.value ≤ A.argument)) &&
      (!A.calls.contains name || allOf (saysNothing A) rules)
  | mixinCall name _ important _ => !important || A.calls.contains name
  | argument _ value => value.marks A.value ≤ A.argument
  | _ => true

end Node

/-- A stylesheet keeps to an allowance, and if it is to be silent then it says nothing. -/
def thrifty (A : Allowance) (silent : Bool) : Standard where
  rule n := n.keepsTo A ∧ (silent → n.saysNothing A)
  property := Node.IsValue
  definition name v := v.IsValue ∧ v.marks A.value ≤ A.value name
  parameter name := A.argument ≤ A.value name
  argument v := v.IsValue ∧ v.marks A.value ≤ A.argument
  bound hname h := ⟨h.1, h.2.trans hname⟩
  all {values} h := by
    refine ⟨Node.areValues_iff.mpr fun v hv => (h v hv).1, ?_⟩
    rcases A.all with hnone | hall
    · have hsum : (Node.row values).marks A.value = 0 := by
        rw [Node.row, Node.marks, Node.marksOf_eq_sum, List.sum_eq_zero_iff, List.forall_mem_map]
        exact fun v hv => le_zero_iff.mp (hnone ▸ (h v hv).2)
      rw [hsum]
      exact zero_le
    · rw [hall]
      exact le_top

/-! ## Evaluating values -/

variable {A : Allowance} {silent : Bool}

/-- The definitions of a thrifty context are values. -/
theorem Context.Meets.valued_of_thrifty {c : Context} (h : c.Meets (thrifty A silent)) : c.Valued :=
  fun f hf x hx => ((h f hf).values x hx).1

/-- Definitions that are values say no more when they are evaluated. -/
def Deeper.Lessens (A : Allowance) (d : Deeper) : Prop :=
  ∀ c n, c.Meets (thrifty A false) → n.IsValue → Ensures (d.node c n) fun v =>
    v.marks A.value ≤ n.marks A.value

namespace Evaluation

variable {d : Deeper}

/-- The value of a variable says no more than the variable may. -/
theorem reference_marks (hd : d.Lessens A) {c : Context} (hc : c.Meets (thrifty A false))
    (name : String) (offset : Nat) :
    Ensures (reference d c name offset) fun v => v.marks A.value ≤ A.value name := by
  unfold reference
  split
  · exact .error
  · next definition found =>
    intro v hv
    obtain ⟨inside, hinside, hv⟩ := exists_of_bind_eq_ok hv
    obtain ⟨hvalue, hmarks⟩ := hc.definition found
    exact (hd inside definition (hc.inVariable hinside) hvalue v hv).trans hmarks

mutual
/-- **A value says `!important` no more often when it is evaluated.** -/
theorem eval_marks (hd : d.Lessens A) :
    ∀ (c : Context) (n : Node), c.Meets (thrifty A false) → n.IsValue →
    Ensures (eval d c n) fun y => y.toNode.marks A.value ≤ n.marks A.value
  | _, .dimension _, _, _ => .ok le_rfl
  | c, .expression [] _ _ _, _, _ => .ok (Node.marks_keepParens c _ _ _ _).le
  | c, .expression [item] parens operand _, hc, h => by
    have hinside := hc.of_frames (sameScope_insideRow c parens operand).frames
    refine .bind (eval_marks hd _ item hinside h.1) fun y hy => .ok ?_
    rw [Yield.toNode, Node.marks_keepParens, Node.marks, Node.marksOf, Node.marksOf, add_zero]
    exact hy
  | c, .expression (item :: next :: items) parens operand _, hc, h => by
    have hinside := hc.of_frames (sameScope_insideRow c parens operand).frames
    refine .bind (evalSplice_marks hd _ (item :: next :: items) hinside h) fun vs hvs => .ok ?_
    rw [Yield.toNode, Node.marks_keepParens]
    exact hvs
  | _, .list [], _, _ => .ok le_rfl
  | c, .list [item], hc, h => by
    refine .bind (eval_marks hd c item hc h.1) fun y hy => .ok ?_
    rw [Yield.toNode, Node.marks, Node.marksOf, Node.marksOf, add_zero]
    exact hy
  | c, .list (item :: next :: items), hc, h =>
    .bind (evalEach_marks hd c (item :: next :: items) hc h) fun _ hvs => .ok hvs
  | c, .paren inner, hc, h => .bind (eval_marks hd c inner hc h) fun _ hy => .ok hy
  | _, .keyword _, _, _ => .ok le_rfl
  | _, .quoted .., _, _ => .seq fun _ => .ok le_rfl
  | _, .url _, _, _ => .seq fun _ => .ok le_rfl
  | c, .reference name offset, hc, _ => .bind (reference_marks hd hc name offset) fun _ hv => .ok hv
  | c, .operation op left right spaced offset, hc, h => by
    refine .bind (eval_marks hd c left hc h.1) fun l hl => ?_
    refine .bind (eval_marks hd c right hc h.2) fun r hr => ?_
    refine .bind (operation_cases c op l.toNode r.toNode spaced offset) fun n hn => .ok ?_
    rcases hn with ⟨number, rfl⟩ | rfl
    · exact zero_le
    · exact add_le_add hl hr
  | c, .negative inner, hc, h => by
    refine .bind (eval_marks hd c inner hc h) fun y hy => ?_
    refine .bind (negative_cases c y.toNode) fun n hn => .ok ?_
    rcases hn with ⟨number, rfl⟩ | rfl
    · exact zero_le
    · exact hy
  | c, .call name args offset, hc, h => by
    refine .bind (evalEach_marks hd (c.inCall (isCalc name)) args (hc.of_frames rfl) h)
      fun vs hvs => ?_
    refine .bind (builtin_cases c.style name vs) fun result hresult => .ok ?_
    rcases hresult with rfl | ⟨number, rfl⟩
    · exact hvs
    · exact zero_le
/-- Values evaluated one by one say no more together than before. -/
theorem evalEach_marks (hd : d.Lessens A) :
    ∀ (c : Context) (nodes : List Node), c.Meets (thrifty A false) →
    Node.AreValues nodes →
    Ensures (evalEach d c nodes) fun vs => Node.marksOf A.value vs ≤ Node.marksOf A.value nodes
  | _, [], _, _ => .ok le_rfl
  | c, node :: nodes, hc, h => by
    refine .bind (eval_marks hd c node hc h.1) fun y hy => ?_
    exact .bind (evalEach_marks hd c nodes hc h.2) fun vs hvs => .ok (add_le_add hy hvs)
/-- Values evaluated as rules say no more together than before. -/
theorem evalSplice_marks (hd : d.Lessens A) :
    ∀ (c : Context) (nodes : List Node), c.Meets (thrifty A false) →
    Node.AreValues nodes →
    Ensures (evalSplice d c nodes) fun vs => Node.marksOf A.value vs ≤ Node.marksOf A.value nodes
  | _, [], _, _ => .ok le_rfl
  | c, node :: nodes, hc, h => by
    refine .bind (eval_marks hd c node hc h.1) fun y hy => ?_
    refine .bind (evalSplice_marks hd c nodes hc h.2) fun vs hvs => .ok ?_
    rw [Node.marksOf_append, Node.marksOf_toList]
    exact add_le_add hy hvs
end

end Evaluation

/-- At any depth, values say no more when they are evaluated, by induction on the bound. -/
theorem Deeper.within_lessens : ∀ k, (Deeper.within k).Lessens A
  | 0 => fun _ _ _ _ => .error
  | k + 1 =>
    fun c n hc hn => .bind (Evaluation.eval_marks (within_lessens k) c n hc hn) fun _ hy => .ok hy

end LessCss
