import LessCss.Proofs.Evaluation.Finished
import LessCss.Proofs.Nesting.Shape

/-!
# What evaluation keeps of a value

Evaluation replaces the parts of a value by other values, fills the holes of its texts, puts numbers
in the place of operations and calls, and puts parentheses around values.  A property of nodes that
none of this changes holds throughout the value that comes out if it holds throughout the one that
goes in and throughout all definitions in scope (`Evaluation.eval_kept`).  So does a property of
errors hold of the error, if it holds of all *ordinary* errors and of those that the operations
raise.
-/

namespace LessCss

open Evaluation

/-- A property of nodes that evaluation does not change. -/
structure Kept (K : Node → Prop) : Prop where
  dimension : ∀ d, K (.dimension d)
  expression : ∀ items parens operand tight, K (.expression items parens operand tight)
  list : ∀ items, K (.list items)
  paren : ∀ inner, K (.paren inner)
  negative : ∀ inner, K (.negative inner)
  quoted : ∀ {d : Deeper} {c : Context} {quote : Char} {text filled : String} {escaped : Bool},
    fill d c text = .ok filled → K (.quoted quote text escaped) → K (.quoted quote filled escaped)
  url : ∀ {d : Deeper} {c : Context} {text filled : String},
    fill d c text = .ok filled → K (.url text) → K (.url filled)
  operation : ∀ {op : Operator} {left right left' right' : Node} {spaced : Bool} {offset : Nat},
    K (.operation op left right spaced offset) → K (.operation op left' right' spaced offset)
  call : ∀ {name : String} {args args' : List Node} {offset : Nat},
    K (.call name args offset) → K (.call name args' offset)

theorem Kept.any : Kept fun _ => True :=
  ⟨fun _ => trivial, fun _ _ _ _ => trivial, fun _ => trivial, fun _ => trivial, fun _ => trivial,
    fun _ _ => trivial, fun _ _ => trivial, fun _ => trivial, fun _ => trivial⟩

/-- A property of all errors that evaluation raises where a property of nodes holds. -/
structure Raised (K : Node → Prop) (F : Error → Prop) : Prop where
  ordinary : ∀ {e : Error}, e.Ordinary → F e
  unfinished : F .unfinished
  operation :
    ∀ {c : Context} {op : Operator} {left right v w : Node} {spaced : Bool} {offset : Nat},
    K (.operation op left right spaced offset) →
      Fails (Evaluation.operation c op v w spaced offset) F

theorem Raised.any {K : Node → Prop} : Raised K fun _ => True :=
  ⟨fun _ => trivial, trivial, fun _ _ _ => trivial⟩

/-- A property of contexts that is one of their definitions: all of them have a property of
values. -/
structure Scoped (V : Node → Prop) (C : Context → Prop) : Prop where
  of_frames : ∀ {c c' : Context}, C c → c'.frames = c.frames → C c'
  definition : ∀ {c : Context} {name : String} {v : Node}, C c → c.definition? name = some v → V v

/-- All that it takes for evaluation to keep a property of nodes: definitions keep it too. -/
structure Keeping (K : Node → Prop) (F : Error → Prop) (C : Context → Prop) (d : Deeper) :
    Prop where
  nodes : Kept K
  errors : Raised K F
  scopes : Scoped (Node.IsValueOf K) C
  deeper : ∀ c n, C c → n.IsValueOf K → Ends (d.node c n) (Node.IsValueOf K) F

namespace Evaluation

open Node

variable {K : Node → Prop} {F : Error → Prop} {C : Context → Prop} {d : Deeper}

/-! ## Parts of values -/

/-- A variable stands for a value whose nodes are kept, or entering it fails in one of the ways
foreseen. -/
theorem reference_kept (hk : Keeping K F C d) {c : Context} (hc : C c) (name : String)
    (offset : Nat) :
    Ends (reference d c name offset) (IsValueOf K) F := by
  unfold reference
  split
  · exact .raise (hk.errors.ordinary (Error.ordinary_undefinedVariable name offset))
  · next v found =>
    refine .bind (.of_fails ((inVariable_fails c name).mono fun _ => hk.errors.ordinary))
      fun inside hinside => ?_
    obtain ⟨-, rfl⟩ := Context.inVariable_eq_ok hinside
    exact hk.deeper _ v (hk.scopes.of_frames hc rfl) (hk.scopes.definition hc found)

theorem fill_fails (hk : Keeping K F C d) {c : Context} (hc : C c) (text : String) :
    Fails (fill d c text) F := by
  refine .bind (.mapM fun part _ => ?_) fun _ => .ok _
  cases part with
  | plain char => exact .ok _
  | hole name offset =>
    refine .bind (reference_kept hk hc _ offset).error fun v => ?_
    exact (bareText_fails c.style v).mono fun _ => hk.errors.ordinary

/-- The parentheses around a result add no node that is not kept. -/
theorem keepParens_kept (hk : Kept K) (c : Context) (parens operand double : Bool) {n : Node}
    (h : n.IsValueOf K) :
    (keepParens c parens operand double n).IsValueOf K := by
  rcases keepParens_cases c parens operand double n with he | he
  · rw [he]
    exact h
  · rw [he]
    exact isValueOf_iff.mpr ⟨rfl, hk.paren n, List.forall_mem_singleton.mpr h⟩

/-! ## Values -/

/-- A single value of a sort. -/
def IsOne (V : Node → Prop) (y : Yield) : Prop := ∃ v : Node, y = .one v ∧ V v

theorem IsOne.one {V : Node → Prop} {v : Node} (h : V v) : IsOne V (.one v) := ⟨v, rfl, h⟩

theorem IsOne.toNode {V : Node → Prop} {y : Yield} (h : IsOne V y) : V y.toNode := by
  obtain ⟨v, rfl, hv⟩ := h
  exact hv

mutual
/-- **A value is evaluated to a value with the same properties.** -/
theorem eval_kept (hk : Keeping K F C d) : ∀ (c : Context) (n : Node), C c → n.IsValueOf K →
    Ends (eval d c n) (IsOne (IsValueOf K)) F
  | _, .dimension _, _, h => .ok (.one h)
  | c, .expression [] _ _ _, _, h => .ok (.one (keepParens_kept hk.nodes c _ _ _ h))
  | c, .expression [item] parens operand _, hc, h => by
    have hinside := hk.scopes.of_frames hc (sameScope_insideRow c parens operand).frames
    have hitem := (isValueOf_iff.mp h).2.2 item List.mem_cons_self
    exact .bind (eval_kept hk _ item hinside hitem) fun y hy =>
      .ok (.one (keepParens_kept hk.nodes c _ _ _ hy.toNode))
  | c, .expression (item :: next :: items) parens operand tight, hc, h => by
    have hinside := hk.scopes.of_frames hc (sameScope_insideRow c parens operand).frames
    refine .bind (evalSplice_kept hk _ (item :: next :: items) hinside (isValueOf_iff.mp h).2.2)
      fun vs hvs => ?_
    have hrow : (expression vs parens operand tight).IsValueOf K :=
      isValueOf_iff.mpr ⟨rfl, hk.nodes.expression vs parens operand tight, hvs⟩
    exact .ok (.one (keepParens_kept hk.nodes c _ _ _ hrow))
  | _, .list [], _, h => .ok (.one h)
  | c, .list [item], hc, h => by
    have hitem := (isValueOf_iff.mp h).2.2 item List.mem_cons_self
    exact .bind (eval_kept hk c item hc hitem) fun y hy => .ok (.one hy.toNode)
  | c, .list (item :: next :: items), hc, h => by
    refine .bind (evalEach_kept hk c (item :: next :: items) hc (isValueOf_iff.mp h).2.2)
      fun vs hvs => ?_
    exact .ok (.one (isValueOf_iff.mpr ⟨rfl, hk.nodes.list vs, hvs⟩))
  | c, .paren inner, hc, h => by
    have hinner := (isValueOf_iff.mp h).2.2 inner List.mem_cons_self
    refine .bind (eval_kept hk c inner hc hinner) fun y hy => ?_
    exact .ok
      (.one (isValueOf_iff.mpr ⟨rfl, hk.nodes.paren _, List.forall_mem_singleton.mpr hy.toNode⟩))
  | _, .keyword _, _, h => .ok (.one h)
  | c, .quoted quote text escaped, hc, h => by
    refine .bind (.of_fails (fill_fails hk hc text)) fun filled hfilled => ?_
    exact .ok (.one (isValueOf_iff.mpr ⟨rfl, hk.nodes.quoted hfilled h.2.self, nofun⟩))
  | c, .url text, hc, h => by
    refine .bind (.of_fails (fill_fails hk hc text)) fun filled hfilled => ?_
    exact .ok (.one (isValueOf_iff.mpr ⟨rfl, hk.nodes.url hfilled h.2.self, nofun⟩))
  | c, .reference name offset, hc, _ =>
    .bind (reference_kept hk hc name offset) fun v hv => .ok (.one hv)
  | c, .operation op left right spaced offset, hc, h => by
    obtain ⟨-, hown, hparts⟩ := isValueOf_iff.mp h
    obtain ⟨hleft, hright⟩ := List.forall_mem_cons.mp hparts
    refine .bind (eval_kept hk c left hc hleft) fun l hl => ?_
    refine .bind (eval_kept hk c right hc (hright right List.mem_cons_self)) fun r hr => ?_
    have hresult : Ends (operation c op l.toNode r.toNode spaced offset) (IsValueOf K) F := by
      refine ⟨fun n hn => ?_, hk.errors.operation hown⟩
      rcases operation_cases c op l.toNode r.toNode spaced offset n hn with ⟨number, rfl⟩ | rfl
      · exact isValueOf_iff.mpr ⟨rfl, hk.nodes.dimension number, nofun⟩
      · exact isValueOf_iff.mpr ⟨rfl, hk.nodes.operation hown,
          List.forall_mem_cons.mpr ⟨hl.toNode, List.forall_mem_singleton.mpr hr.toNode⟩⟩
    exact .bind hresult fun n hn => .ok (.one hn)
  | c, .negative inner, hc, h => by
    have hinner := (isValueOf_iff.mp h).2.2 inner List.mem_cons_self
    refine .bind (eval_kept hk c inner hc hinner) fun y hy => ?_
    obtain ⟨n, hn⟩ := negative_succeeds c y.toNode
    have hresult : n.IsValueOf K := by
      rcases negative_cases c y.toNode n hn with ⟨number, rfl⟩ | rfl
      · exact isValueOf_iff.mpr ⟨rfl, hk.nodes.dimension number, nofun⟩
      · exact isValueOf_iff.mpr ⟨rfl, hk.nodes.negative _, List.forall_mem_singleton.mpr hy.toNode⟩
    rw [hn]
    exact .ok (.one hresult)
  | c, .call name args offset, hc, h => by
    obtain ⟨-, hown, hargs⟩ := isValueOf_iff.mp h
    refine .bind (evalEach_kept hk (c.inCall (isCalc name)) args (hk.scopes.of_frames hc rfl) hargs)
      fun vs hvs => ?_
    have hresult :
        Ends (builtin c.style name vs)
          (fun n => (n.getD (.call name vs offset)).IsValueOf K) F := by
      refine ⟨fun n hn => ?_, (builtin_fails c.style name vs).mono fun _ => hk.errors.ordinary⟩
      rcases builtin_cases c.style name vs n hn with rfl | ⟨number, rfl⟩
      · exact isValueOf_iff.mpr ⟨rfl, hk.nodes.call hown, hvs⟩
      · exact isValueOf_iff.mpr ⟨rfl, hk.nodes.dimension number, nofun⟩
    exact .bind hresult fun n hn => .ok (.one hn)
  | _, .comment .., _, h | _, .declaration .., _, h | _, .selector _, _, h | _, .ruleset .., _, h
  | _, .atRule .., _, h | _, .media .., _, h | _, .importRule .., _, h | _, .mixin .., _, h
  | _, .mixinCall .., _, h | _, .argument .., _, h => h.1.elim
/-- Values are evaluated one by one to values whose nodes are kept. -/
theorem evalEach_kept (hk : Keeping K F C d) : ∀ (c : Context) (nodes : List Node), C c →
    (∀ n ∈ nodes, n.IsValueOf K) → Ends (evalEach d c nodes) (fun vs => ∀ v ∈ vs, v.IsValueOf K) F
  | _, [], _, _ => .ok nofun
  | c, node :: nodes, hc, h => by
    obtain ⟨hnode, hnodes⟩ := List.forall_mem_cons.mp h
    refine .bind (eval_kept hk c node hc hnode) fun y hy => ?_
    refine .bind (evalEach_kept hk c nodes hc hnodes) fun vs hvs => ?_
    exact .ok (List.forall_mem_cons.mpr ⟨hy.toNode, hvs⟩)
theorem evalSplice_kept (hk : Keeping K F C d) : ∀ (c : Context) (nodes : List Node), C c →
    (∀ n ∈ nodes, n.IsValueOf K) → Ends (evalSplice d c nodes) (fun vs => ∀ v ∈ vs, v.IsValueOf K) F
  | _, [], _, _ => .ok nofun
  | c, node :: nodes, hc, h => by
    obtain ⟨hnode, hnodes⟩ := List.forall_mem_cons.mp h
    refine .bind (eval_kept hk c node hc hnode) fun y hy => ?_
    refine .bind (evalSplice_kept hk c nodes hc hnodes) fun vs hvs => ?_
    obtain ⟨v, rfl, hv⟩ := hy
    exact .ok (List.forall_mem_cons.mpr ⟨hv, hvs⟩)
end

end Evaluation

/-- At any depth, evaluation keeps the nodes of values, by induction on the bound. -/
theorem Deeper.within_keeping {K : Node → Prop} {F : Error → Prop} {C : Context → Prop}
    (hk : Kept K) (hr : Raised K F) (hs : Scoped (Node.IsValueOf K) C) :
    ∀ k, Keeping K F C (within k)
  | 0 => ⟨hk, hr, hs, fun _ _ _ _ => .raise hr.unfinished⟩
  | k + 1 => ⟨hk, hr, hs, fun c n hc hn =>
    .bind (eval_kept (within_keeping hk hr hs k) c n hc hn) fun _ hy => .ok hy.toNode⟩

end LessCss
