import LessCss.Proofs.Grouping.Read

/-!
# Operands that stay operands

Parentheses around an operand are written only where math is off, as if a number took their place
everywhere else. But an operation with an operand that is no number is left as it is, and the value
of a variable may be an operation too.  Either then stands bare among other operators, and its
operands become theirs.

What a value can become is foreseen here without evaluating it: whether it is a number where
operators are carried out (`Node.isNumeric`), and whether it is no operation wherever it is
evaluated (`Node.isFirm`), given what the variables stand for (`Roles`).  A value is *steady* if its
operations are grouped as they are written and their operands are firm, unless they are operations
of their own right.  A steady value remains steady when it is evaluated (`Evaluation.eval_steady`),
and so all operations in the result are grouped as they are written.
-/

namespace LessCss

open Evaluation

/-- What the variables of a stylesheet stand for: which are numbers wherever operators are carried
out, and which may be operations. -/
structure Roles where
  numbers : List String
  loose : List String

namespace Node

variable (r : Roles)

/-- Whether a value is a number where operators are carried out. -/
def isNumeric : Node → Bool
  | dimension _ => true
  | reference name _ => r.numbers.contains name
  | operation _ left right _ _ => isNumeric left && isNumeric right
  | negative inner => isNumeric inner
  | expression [item] _ _ _ => isNumeric item
  | list [item] => isNumeric item
  | _ => false

/-- Whether a value is no operation wherever it is evaluated.  Parentheses that are an operand make
it so around something numeric: they are written, or a number takes their place. -/
def isFirm : Node → Bool
  | operation .. => false
  | reference name _ => !r.loose.contains name
  | expression [item] parens operand _ => isFirm item || parens && operand && isNumeric r item
  | list [item] => isFirm item
  | _ => true

/-- Whether an operand is firm, unless it is an operation of its own right. -/
def isOperand (n : Node) : Bool := n.operator?.isSome || n.isFirm r

/-- Whether the operands of a node stay operands, and its definitions and arguments are what is
expected of them. -/
def keepsOperands : Node → Bool
  | operation _ left right _ _ => left.isOperand r && right.isOperand r
  | negative inner => inner.isFirm r
  | declaration name value _ true _ =>
    (r.loose.contains name || value.isFirm r) && (!r.numbers.contains name || value.isNumeric r)
  | mixin _ params _ _ => params.all fun p => p.1.all (!r.numbers.contains ·) && p.2.all (isFirm r)
  | argument _ value => value.isFirm r
  | _ => true

variable {r}

/-- A value whose operations are grouped as they are written, with operands that stay operands. -/
def Steady (r : Roles) : Node → Prop := IsValueOf fun n => n.isGrouped ∧ n.keepsOperands r

namespace Steady

variable {n : Node}

/-- The parts of a steady value are steady. -/
theorem part (h : n.Steady r) : ∀ m ∈ n.parts, m.Steady r := (isValueOf_iff.mp h).2.2

/-- A steady value is grouped as it is written. -/
theorem grouped (h : n.Steady r) : n.GroupedValue := ⟨h.1, h.2.imp fun _ hm => hm.1⟩

/-- For the values that are neither operations nor negatives. -/
theorem of_parts (hsort : n.isValueSort) (hgrouped : n.isGrouped) (hkeeps : n.keepsOperands r)
    (h : ∀ m ∈ n.parts, m.Steady r) : n.Steady r := isValueOf_iff.mpr ⟨hsort, ⟨hgrouped, hkeeps⟩, h⟩

theorem dimension (d : Dimension) : (dimension d).Steady r :=
  of_parts rfl rfl rfl (List.forall_mem_nil _)

/-- A row of steady values is steady. -/
theorem row {values : List Node} (h : ∀ v ∈ values, v.Steady r) : (row values).Steady r :=
  of_parts rfl rfl rfl h

end Steady

/-- What is firm is no operation. -/
theorem operator?_of_isFirm {n : Node} (h : n.isFirm r) : n.operator? = none := by
  cases n with
  | operation => cases h
  | _ => rfl

/-- A row of firm values is firm, also if it is the only one. -/
theorem isFirm_row {values : List Node} (h : ∀ v ∈ values, v.isFirm r) : (row values).isFirm r := by
  match values with
  | [] | _ :: _ :: _ => rfl
  | [v] => simp [row, isFirm, h v List.mem_cons_self]

end Node

/-! ## Standards for stylesheets -/

/-- All values of a stylesheet are steady, definitions are as the roles of variables say, and
arguments are firm. -/
def steady (r : Roles) (hr : "@arguments" ∉ r.numbers) : Standard where
  rule _ := True
  property := Node.Steady r
  definition name v := v.Steady r ∧ (name ∈ r.loose ∨ v.isFirm r) ∧
    (name ∈ r.numbers → v.isNumeric r)
  parameter name := name ∉ r.numbers
  argument v := v.Steady r ∧ v.isFirm r
  bound hname h := ⟨h.1, .inr h.2, fun hmem => (hname hmem).elim⟩
  all h :=
    ⟨.row fun v hv => (h v hv).1, .inr (Node.isFirm_row fun v hv => (h v hv).2), fun hmem =>
      (hr hmem).elim⟩

/-! ## Where operators are carried out -/

namespace Context

variable {c : Context}

/-- Every operator is carried out here. -/
def Computing (c : Context) : Prop := ∀ op, c.computes (some op) = true

theorem computing_inParens (h : c.mathOn = true) : c.inParens.Computing := by
  intro op
  cases hmath : c.math with
  | always | parensDivision | parens | strictLegacy => simp [computes, inParens, h, hmath]

theorem Computing.mathOn (h : c.Computing) : c.mathOn = true := (Bool.and_eq_true_iff.mp (h .add)).1

/-- Where operators are carried out they are inside of a row as well. -/
theorem Computing.insideRow (h : c.Computing) (parens operand : Bool) :
    (insideRow c parens operand).Computing := by
  unfold Evaluation.insideRow
  split
  · exact computing_inParens h.mathOn
  · exact h

/-- Where parentheses that are an operand are not written, they leave nothing to do. -/
theorem computing_insideRow (h : c.computes none = true) : (insideRow c true true).Computing := by
  obtain ⟨hon, hmode⟩ := Bool.and_eq_true_iff.mp h
  unfold Evaluation.insideRow
  split
  · exact computing_inParens hon
  · next hlegacy =>
    intro op
    have hmath : c.math = .strictLegacy := by simpa using hlegacy
    simpa [computes, hmath, hon] using hmode

/-- In a context of this sort all definitions in scope are steady, and math is off only in
`calc`. -/
structure SteadyIn (s : Standard) (c : Context) : Prop where
  meets : c.Meets s
  mathOff : c.mathOn = false → c.inCalc = true

theorem SteadyIn.insideRow {s : Standard} (h : c.SteadyIn s) (parens operand : Bool) :
    (insideRow c parens operand).SteadyIn s := by
  unfold Evaluation.insideRow
  split
  · exact ⟨h.meets.of_frames rfl, h.mathOff⟩
  · exact h

theorem Computing.inVariable {name : String} {inside : Context} (h : c.Computing)
    (hi : c.inVariable name = .ok inside) : inside.Computing := by
  obtain ⟨-, rfl⟩ := inVariable_eq_ok hi
  exact h

theorem SteadyIn.inVariable {s : Standard} {name : String} {inside : Context} (h : c.SteadyIn s)
    (hi : c.inVariable name = .ok inside) : inside.SteadyIn s := by
  refine ⟨h.meets.inVariable hi, ?_⟩
  obtain ⟨-, rfl⟩ := inVariable_eq_ok hi
  exact h.mathOff

theorem SteadyIn.inCall {s : Standard} (h : c.SteadyIn s) (isCalc : Bool) :
    (c.inCall isCalc).SteadyIn s := by
  refine ⟨h.meets.of_frames rfl, fun hoff => ?_⟩
  cases isCalc with
  | true => simp [Context.inCall]
  | false => cases hoff

end Context

/-! ## Evaluation -/

/-- What a steady value can become: a steady value that is firm if it was, and the same operation or
a number if it was an operation.  If it is numeric and operators are carried out inside of it, it
becomes a number. -/
structure Becomes (r : Roles) (c : Context) (n v : Node) : Prop where
  steady : v.Steady r
  firm : n.isFirm r → v.isFirm r
  operator : ∀ op ∈ n.operator?, v.operator? = some op ∨ ∃ d, v = .dimension d
  number : n.isNumeric r → (insideRow c n.parenFlags.1 n.parenFlags.2).Computing →
    ∃ d, v = .dimension d

/-- Definitions that are steady are evaluated to what they can become. -/
def Deeper.Steady (r : Roles) (s : Standard) (d : Deeper) : Prop :=
  ∀ c n, c.SteadyIn s → n.Steady r → Ensures (d.node c n) (Becomes r c n)

namespace Becomes

variable {r : Roles} {c : Context} {n v : Node}

/-- Anything may become a number. -/
theorem dimension (d : Dimension) : Becomes r c n (.dimension d) :=
  ⟨.dimension d, fun _ => rfl, fun _ _ => .inr ⟨d, rfl⟩, fun _ _ => ⟨d, rfl⟩⟩

/-- For values that are neither numeric nor operations. -/
theorem of_firm (hnumeric : n.isNumeric r = false) (hoperator : n.operator? = none)
    (hfirm : v.isFirm r) (hv : v.Steady r) : Becomes r c n v := by
  refine ⟨hv, fun _ => hfirm, ?_, ?_⟩
  · rw [hoperator]
    exact nofun
  · rw [hnumeric]
    exact nofun

/-- An operand stays an operand, and if it is an operation then the one that it was. -/
theorem operand (h : Becomes r c n v) (hn : n.isOperand r) :
    v.isOperand r ∧ ∀ op ∈ v.operator?, op ∈ n.operator? := by
  cases hop : n.operator? with
  | some op =>
    rcases h.operator op hop with hv | ⟨d, rfl⟩
    · exact ⟨by simp [Node.isOperand, hv], fun o ho => hv ▸ ho⟩
    · exact ⟨rfl, nofun⟩
  | none =>
    have hfirm : v.isFirm r := h.firm (by simpa [Node.isOperand, hop] using hn)
    exact ⟨by simp [Node.isOperand, hfirm], fun o ho => Node.operator?_of_isFirm hfirm ▸ ho⟩

end Becomes

namespace Evaluation

variable {r : Roles} {hr : "@arguments" ∉ r.numbers} {d : Deeper} {c : Context}

/-- The value of a variable. -/
theorem reference_becomes (hd : d.Steady r (steady r hr)) (hc : c.SteadyIn (steady r hr))
    (name : String) (offset : Nat) :
    Ensures (reference d c name offset) (Becomes r c (.reference name offset)) := by
  unfold reference
  split
  · exact .error
  · next definition found =>
    intro v hv
    obtain ⟨inside, hinside, hv⟩ := exists_of_bind_eq_ok hv
    obtain ⟨hsteady, hfirm, hnumeric⟩ := hc.meets.definition found
    have hbecomes := hd _ definition (hc.inVariable hinside) hsteady v hv
    refine ⟨hbecomes.steady, fun hn => hbecomes.firm ?_, fun op hop => ?_, fun hn hcomputing => ?_⟩
    · exact hfirm.resolve_left (by simpa [Node.isFirm] using hn)
    · cases hop
    · have hcomputing : c.Computing := hcomputing
      exact hbecomes.number (hnumeric (by simpa [Node.isNumeric] using hn))
        ((hcomputing.inVariable hinside).insideRow _ _)

/-- Why parentheses are not written: because math is on, because others are, or because they are
around a number. -/
theorem keepParens_operand (double : Bool) (n : Node) :
    keepParens c true true double n = .paren n ∨ keepParens c true true double n = n ∧
      (c.computes none = true ∨ double = true ∨ ∃ d, n = .dimension d) := by
  unfold keepParens
  split
  · exact .inl rfl
  · next h =>
    refine .inr ⟨rfl, ?_⟩
    cases n with
    | dimension d => exact .inr (.inr ⟨d, rfl⟩)
    | _ =>
      simp only [Node.dimension?, Option.isNone_none, Bool.and_true, Bool.true_and,
        Bool.and_eq_true, Bool.not_eq_true', not_and_or, Bool.not_eq_false] at h
      exact h.imp_right .inl

/-- A steady value in the parentheses that are kept is steady. -/
theorem keepParens_steady (parens operand double : Bool) {n : Node} (h : n.Steady r) :
    (keepParens c parens operand double n).Steady r := by
  rcases keepParens_cases c parens operand double n with he | he
  · rw [he]
    exact h
  · rw [he]
    exact .of_parts rfl rfl rfl (List.forall_mem_singleton.mpr h)

/-- A firm value in the parentheses that are kept is firm. -/
theorem keepParens_firm (parens operand double : Bool) {n : Node} (h : n.isFirm r) :
    (keepParens c parens operand double n).isFirm r := by
  rcases keepParens_cases c parens operand double n with he | he
  · rw [he]
    exact h
  · rw [he]
    rfl

/-- Parentheses that are written anyway: operators are carried out inside of them. -/
theorem computing_of_doublesParens {s : Standard} (hc : c.SteadyIn s) {item : Node}
    (h : doublesParens c item = true) :
    (insideRow c item.parenFlags.1 item.parenFlags.2).Computing := by
  unfold doublesParens at h
  simp only [Bool.and_eq_true, Bool.not_eq_true'] at h
  obtain ⟨⟨hparens, hoperand⟩, hcalc⟩ := h
  have hon : c.mathOn = true := by
    cases hmath : c.mathOn with
    | true => rfl
    | false => cases (hc.mathOff hmath).symm.trans hcalc
  rw [hparens, hoperand]
  simpa [insideRow] using Context.computing_inParens hon

/-- **Parentheses around a single value.**  If they are an operand and around something numeric then
they are written or a number results. -/
theorem keepParens_becomes {s : Standard} (hc : c.SteadyIn s) {item v : Node}
    {parens operand tight : Bool} (h : Becomes r (insideRow c parens operand) item v) :
    Becomes r c (.expression [item] parens operand tight)
      (keepParens c parens operand (doublesParens (insideRow c parens operand) item) v) := by
  have hinside := hc.insideRow parens operand
  refine ⟨keepParens_steady _ _ _ h.steady, fun hfirm => ?_, nofun, fun hnumeric hcomputing => ?_⟩
  · rcases Bool.or_eq_true_iff.mp hfirm with hfirm | hfirm
    · exact keepParens_firm _ _ _ (h.firm hfirm)
    · simp only [Bool.and_eq_true] at hfirm
      obtain ⟨⟨rfl, rfl⟩, hnumeric⟩ := hfirm
      rcases keepParens_operand (doublesParens (insideRow c true true) item) v with he | ⟨he, hwhy⟩
      · rw [he]
        rfl
      · -- where they are not written, operators are carried out inside of them or of those that are
        -- doubled
        have hnumber : ∃ d, v = .dimension d := by
          rcases hwhy with hcomputes | hdouble | hnumber
          · exact h.number hnumeric ((Context.computing_insideRow hcomputes).insideRow _ _)
          · exact h.number hnumeric (computing_of_doublesParens hinside hdouble)
          · exact hnumber
        obtain ⟨d, rfl⟩ := hnumber
        rw [he]
        rfl
  · have hcomputing : (insideRow c parens operand).Computing := hcomputing
    obtain ⟨d, rfl⟩ := h.number hnumeric (hcomputing.insideRow _ _)
    exact ⟨d, keepParens_dimension _ _ _ d⟩

/-- An operation: what it becomes is a number, or it has the operands that it had. -/
theorem operation_becomes {op : Operator} {left right left' right' : Node} {spaced : Bool}
    {offset : Nat} (h : (Node.operation op left right spaced offset).Steady r)
    (hleft : Becomes r c left left') (hright : Becomes r c right right') :
    Ensures (operation c op left' right' spaced offset)
      (Becomes r c (.operation op left right spaced offset)) := by
  unfold operation
  split
  · exact .seq fun number => .ok (.dimension number)
  · next hother =>
    refine .ok ⟨?_, nofun, fun o ho => .inl ho, fun hnumeric hcomputing => ?_⟩
    · obtain ⟨-, ⟨hgrouped, hkeeps⟩, -⟩ := Node.isValueOf_iff.mp h
      obtain ⟨hleft', hright'⟩ := Bool.and_eq_true_iff.mp hkeeps
      obtain ⟨hkeepsLeft, hleftOperator⟩ := hleft.operand hleft'
      obtain ⟨hkeepsRight, hrightOperator⟩ := hright.operand hright'
      refine .of_parts rfl ?_ (Bool.and_eq_true_iff.mpr ⟨hkeepsLeft, hkeepsRight⟩)
        (List.forall_mem_cons.mpr ⟨hleft.steady, List.forall_mem_singleton.mpr hright.steady⟩)
      simp only [Node.isGrouped, Bool.and_eq_true, Option.all_eq_true] at hgrouped ⊢
      exact ⟨fun o ho => hgrouped.1 o (hleftOperator o ho), fun o ho =>
        hgrouped.2 o (hrightOperator o ho)⟩
    · obtain ⟨hnumericLeft, hnumericRight⟩ := Bool.and_eq_true_iff.mp hnumeric
      have hcomputing : c.Computing := hcomputing
      obtain ⟨a, rfl⟩ := hleft.number hnumericLeft (hcomputing.insideRow _ _)
      obtain ⟨b, rfl⟩ := hright.number hnumericRight (hcomputing.insideRow _ _)
      exact (hother a b (hcomputing op) rfl rfl).elim

/-- A negative: what it becomes is a number, or the negative of no operation. -/
theorem negative_becomes {inner inner' : Node} (h : (Node.negative inner).Steady r)
    (hinner : Becomes r c inner inner') :
    Ensures (negative c inner') (Becomes r c (.negative inner)) := by
  obtain ⟨-, ⟨-, hkeeps⟩, -⟩ := Node.isValueOf_iff.mp h
  have hfirm : inner'.isFirm r := hinner.firm hkeeps
  unfold negative
  split
  · exact .seq fun number => .ok (.dimension number)
  · next hother =>
    refine .ok ⟨?_, fun _ => rfl, nofun, fun hnumeric hcomputing => ?_⟩
    · refine .of_parts rfl ?_ hfirm (List.forall_mem_singleton.mpr hinner.steady)
      simp [Node.isGrouped, Node.operator?_of_isFirm hfirm]
    · have hcomputing : c.Computing := hcomputing
      obtain ⟨number, rfl⟩ := hinner.number hnumeric (hcomputing.insideRow _ _)
      exact (hother number (hcomputing .mul) rfl).elim

/-- A single value that another one becomes. -/
def YieldsSteady (r : Roles) (c : Context) (n : Node) (y : Yield) : Prop :=
  ∃ v, y = .one v ∧ Becomes r c n v

theorem YieldsSteady.one {n v : Node} (h : Becomes r c n v) : YieldsSteady r c n (.one v) :=
  ⟨v, rfl, h⟩

theorem YieldsSteady.toNode {n : Node} {y : Yield} (h : YieldsSteady r c n y) :
    Becomes r c n y.toNode := by
  obtain ⟨v, rfl, hv⟩ := h
  exact hv

/-- Steady values, as many as there were. -/
def AreSteady (r : Roles) (nodes vs : List Node) : Prop :=
  vs.length = nodes.length ∧ ∀ v ∈ vs, v.Steady r

theorem AreSteady.cons {n v : Node} {nodes vs : List Node} (hv : v.Steady r)
    (h : AreSteady r nodes vs) :
    AreSteady r (n :: nodes) (v :: vs) :=
  ⟨congrArg Nat.succ h.1, List.forall_mem_cons.mpr ⟨hv, h.2⟩⟩

mutual
/-- **A steady value is evaluated to what it can become.** -/
theorem eval_steady (hd : d.Steady r (steady r hr)) :
    ∀ (c : Context) (n : Node), c.SteadyIn (steady r hr) →
    n.Steady r → Ensures (eval d c n) (YieldsSteady r c n)
  | _, .dimension number, _, _ => .ok (.one (.dimension number))
  | c, .expression [] _ _ _, _, h => by
    exact .ok (.one (.of_firm rfl rfl (keepParens_firm _ _ _ rfl) (keepParens_steady _ _ _ h)))
  | c, .expression [item] parens operand tight, hc, h => by
    have hitem :=
      eval_steady hd _ item (hc.insideRow parens operand) (h.part item List.mem_cons_self)
    exact .bind hitem fun y hy => .ok (.one (keepParens_becomes hc hy.toNode))
  | c, .expression (item :: next :: items) parens operand tight, hc, h => by
    have hitems :=
      evalSplice_steady hd _ (item :: next :: items) (hc.insideRow parens operand) h.part
    refine .bind hitems fun vs hvs => .ok (.one ?_)
    have hsteady : (Node.expression vs parens operand tight).Steady r := .of_parts rfl rfl rfl hvs.2
    -- a row of several items stays one, so it cannot become one of its items
    match vs, hvs.1 with
    | _ :: _ :: _, _ =>
      exact .of_firm rfl rfl (keepParens_firm _ _ _ rfl) (keepParens_steady _ _ _ hsteady)
  | _, .list [], _, h => .ok (.one (.of_firm rfl rfl rfl h))
  | c, .list [item], hc, h => by
    refine .bind (eval_steady hd c item hc (h.part item List.mem_cons_self)) fun y hy =>
      .ok (.one ?_)
    obtain ⟨hsteady, hfirm, -, hnumber⟩ := hy.toNode
    refine ⟨hsteady, hfirm, nofun, fun hnumeric hcomputing => hnumber hnumeric ?_⟩
    exact Context.Computing.insideRow (c := c) hcomputing _ _
  | c, .list (item :: next :: items), hc, h => by
    refine .bind (evalEach_steady hd c (item :: next :: items) hc h.part) fun vs hvs =>
      .ok (.one ?_)
    have hsteady : (Node.list vs).Steady r := .of_parts rfl rfl rfl hvs.2
    match vs, hvs.1 with
    | _ :: _ :: _, _ => exact .of_firm rfl rfl rfl hsteady
  | c, .paren inner, hc, h => by
    refine .bind (eval_steady hd c inner hc (h.part inner List.mem_cons_self)) fun y hy =>
      .ok (.one ?_)
    exact .of_firm rfl rfl rfl
      (.of_parts rfl rfl rfl (List.forall_mem_singleton.mpr hy.toNode.steady))
  | _, .keyword _, _, h => .ok (.one (.of_firm rfl rfl rfl h))
  | _, .quoted .., _, _ =>
    .seq fun _ => .ok (.one (.of_firm rfl rfl rfl (.of_parts rfl rfl rfl nofun)))
  | _, .url _, _, _ => .seq fun _ => .ok (.one (.of_firm rfl rfl rfl (.of_parts rfl rfl rfl nofun)))
  | c, .reference name offset, hc, _ =>
    .bind (reference_becomes hd hc name offset) fun _ hv => .ok (.one hv)
  | c, .operation op left right spaced offset, hc, h => by
    obtain ⟨hleft, hright⟩ := List.forall_mem_cons.mp h.part
    refine .bind (eval_steady hd c left hc hleft) fun y hy => ?_
    refine .bind (eval_steady hd c right hc (hright right List.mem_cons_self)) fun z hz => ?_
    exact .bind (operation_becomes h hy.toNode hz.toNode) fun v hv => .ok (.one hv)
  | c, .negative inner, hc, h => by
    refine .bind (eval_steady hd c inner hc (h.part inner List.mem_cons_self)) fun y hy => ?_
    exact .bind (negative_becomes h hy.toNode) fun v hv => .ok (.one hv)
  | c, .call name args offset, hc, h => by
    refine .bind (evalEach_steady hd _ args (hc.inCall (isCalc name)) h.part) fun vs hvs => ?_
    refine .bind (builtin_cases c.style name vs) fun result hresult => .ok (.one ?_)
    rcases hresult with rfl | ⟨number, rfl⟩
    · exact .of_firm rfl rfl rfl (.of_parts rfl rfl rfl hvs.2)
    · exact .dimension number
  | _, .comment .., _, h | _, .declaration .., _, h | _, .selector _, _, h | _, .ruleset .., _, h
  | _, .atRule .., _, h | _, .media .., _, h | _, .importRule .., _, h | _, .mixin .., _, h
  | _, .mixinCall .., _, h | _, .argument .., _, h => h.1.elim
theorem evalEach_steady (hd : d.Steady r (steady r hr)) : ∀ (c : Context) (nodes : List Node),
    c.SteadyIn (steady r hr) → (∀ n ∈ nodes, n.Steady r) →
    Ensures (evalEach d c nodes) (AreSteady r nodes)
  | _, [], _, _ => .ok ⟨rfl, nofun⟩
  | c, node :: nodes, hc, h => by
    obtain ⟨hnode, hnodes⟩ := List.forall_mem_cons.mp h
    refine .bind (eval_steady hd c node hc hnode) fun y hy => ?_
    exact .bind (evalEach_steady hd c nodes hc hnodes) fun vs hvs =>
      .ok (.cons hy.toNode.steady hvs)
theorem evalSplice_steady (hd : d.Steady r (steady r hr)) : ∀ (c : Context) (nodes : List Node),
    c.SteadyIn (steady r hr) → (∀ n ∈ nodes, n.Steady r) →
    Ensures (evalSplice d c nodes) (AreSteady r nodes)
  | _, [], _, _ => .ok ⟨rfl, nofun⟩
  | c, node :: nodes, hc, h => by
    obtain ⟨hnode, hnodes⟩ := List.forall_mem_cons.mp h
    refine .bind (eval_steady hd c node hc hnode) fun y hy => ?_
    refine .bind (evalSplice_steady hd c nodes hc hnodes) fun vs hvs => ?_
    obtain ⟨v, rfl, hv⟩ := hy
    exact .ok (.cons hv.steady hvs)
end

end Evaluation

/-- At any depth, steady values are evaluated to what they can become, by induction on the bound. -/
theorem Deeper.within_steady {r : Roles} {hr : "@arguments" ∉ r.numbers} : ∀ k,
    (Deeper.within k).Steady r (steady r hr)
  | 0 => fun _ _ _ _ => .error
  | k + 1 =>
    fun c n hc hn => .bind (eval_steady (within_steady k) c n hc hn) fun _ hy => .ok hy.toNode

end LessCss
