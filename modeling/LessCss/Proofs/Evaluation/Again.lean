import LessCss.Proofs.Evaluation.Reached

/-!
# Evaluating again

An argument of a mixin is evaluated at the call, and its value is evaluated again wherever the
parameter is used. What can happen to a value the second time?

All that evaluation looks up or carries out has been done the first time: no variable is left, an
operator or a function that was left alone is left alone again, and no row or list has one item
only.  Such a value is *settled* (`Node.Settled`).  It was evaluated with as many parentheses around
as there are now, or with more, and fewer of them make no more operators be carried out
(`Node.Settled.mono`).

Two things are not done once and for all.  Texts that fill a hole may make up another hole, together
or with what is next to them, and that one is filled the second time.  And a row of several values
is still marked as an operand in parentheses, so that these are written once more where operators
are left alone (`Node.wrapsRow`). Where the former is ruled out, the latter is the only way for a
value to change (`Ruleset.eval_again`).
-/

namespace LessCss

open Evaluation

/-! ## Fewer parentheses -/

namespace Context

/-- Two places that differ in the parentheses around at most, of which the first has no more. -/
structure Milder (c c' : Context) : Prop where
  math : c.math = c'.math
  mathOn : c.mathOn = c'.mathOn
  style : c.style = c'.style
  parens : c.parens ≤ c'.parens

namespace Milder

variable {c c' : Context}

/-- Around the items of a row there are no fewer parentheses than around the row. -/
theorem insideRow_self (c : Context) (parens operand : Bool) :
    c.Milder (insideRow c parens operand) := by
  unfold insideRow
  split
  · exact ⟨rfl, rfl, rfl, Nat.le_succ _⟩
  · exact ⟨rfl, rfl, rfl, Nat.le_refl _⟩

/-- Where there are fewer parentheses around a row there are fewer around its items. -/
theorem insideRow (h : c.Milder c') (parens operand : Bool) :
    (insideRow c parens operand).Milder (insideRow c' parens operand) := by
  unfold Evaluation.insideRow
  rw [h.math]
  split
  · exact ⟨h.math, h.mathOn, h.style, Nat.succ_le_succ h.parens⟩
  · exact h

theorem inCall (h : c.Milder c') (isCalc : Bool) : (c.inCall isCalc).Milder (c'.inCall isCalc) :=
  ⟨h.math, rfl, h.style, h.parens⟩

/-- What is carried out in fewer parentheses is carried out in more. -/
theorem computes (h : c.Milder c') {op : Option Operator} (hc : c.computes op) :
    c'.computes op := by
  have hparens : c.parens > 0 → c'.parens > 0 := fun hpos => Nat.lt_of_lt_of_le hpos h.parens
  unfold Context.computes at hc ⊢
  rw [h.math, h.mathOn, Bool.and_eq_true] at hc
  rw [Bool.and_eq_true]
  refine ⟨hc.1, ?_⟩
  cases hmath : c'.math with
  | always => rfl
  | parensDivision =>
    simp only [hmath, Bool.or_eq_true, decide_eq_true_eq] at hc ⊢
    exact hc.2.imp_right hparens
  | parens | strictLegacy =>
    simp only [hmath, decide_eq_true_eq] at hc ⊢
    exact hparens hc.2

end Milder

end Context

/-! ## Settled values -/

namespace Node

mutual
/-- A value in which there is nothing to look up or to carry out. -/
def Settled (c : Context) : Node → Prop
  | expression items parens operand _ =>
    items.length ≠ 1 ∧ AreSettled (insideRow c parens operand) items
  | list items => items.length ≠ 1 ∧ AreSettled c items
  | paren inner => Settled c inner
  | operation op left right _ _ =>
    Settled c left ∧ Settled c right ∧
      ∀ a b, c.computes (some op) → left = dimension a → right ≠ dimension b
  | negative inner => Settled c inner ∧ ∀ a, c.computes (some .mul) → inner ≠ dimension a
  | call name args _ =>
    AreSettled (c.inCall (isCalc name)) args ∧ builtin c.style name args = .ok none
  | dimension _ | keyword _ | quoted .. | url _ => True
  | reference .. | comment .. | declaration .. | selector _ | ruleset .. | atRule .. | media ..
  | importRule .. | mixin .. | mixinCall .. | argument .. => False
/-- A row of settled values. -/
def AreSettled (c : Context) : List Node → Prop
  | [] => True
  | node :: nodes => Settled c node ∧ AreSettled c nodes
end

mutual
/-- **A settled value is settled in fewer parentheses as well.** -/
theorem Settled.mono {c c' : Context} (hc : c.Milder c') : ∀ n : Node, n.Settled c' → n.Settled c
  | expression items parens operand _, h =>
    ⟨h.1, AreSettled.mono (hc.insideRow parens operand) items h.2⟩
  | list items, h => ⟨h.1, AreSettled.mono hc items h.2⟩
  | paren inner, h => Settled.mono hc inner h
  | operation _ left right _ _, h =>
    ⟨Settled.mono hc left h.1, Settled.mono hc right h.2.1, fun a b hop =>
      h.2.2 a b (hc.computes hop)⟩
  | negative inner, h => ⟨Settled.mono hc inner h.1, fun a hop => h.2 a (hc.computes hop)⟩
  | call _ args _, h => ⟨AreSettled.mono (hc.inCall _) args h.1, hc.style ▸ h.2⟩
  | dimension _, _ | keyword _, _ | quoted .., _ | url _, _ => trivial
/-- A row of settled values is settled in fewer parentheses as well. -/
theorem AreSettled.mono {c c' : Context} (hc : c.Milder c') : ∀ nodes : List Node,
    AreSettled c' nodes → AreSettled c nodes
  | [], _ => trivial
  | node :: nodes, h => ⟨Settled.mono hc node h.1, AreSettled.mono hc nodes h.2⟩
end

end Node

/-- Definitions that are values are evaluated to settled values. -/
def Deeper.Settles (d : Deeper) : Prop :=
  ∀ c n, c.Valued → n.IsValue → Ensures (d.node c n) (Node.Settled c)

namespace Evaluation

variable {d : Deeper}

/-- An operator that is left alone is left alone for good. -/
theorem operation_settled {c : Context} {left right : Node} (op : Operator) (spaced : Bool)
    (offset : Nat) (hleft : left.Settled c) (hright : right.Settled c) :
    Ensures (operation c op left right spaced offset) (Node.Settled c) := by
  unfold operation
  split
  · exact .seq fun number => .ok trivial
  · next hkept => exact .ok ⟨hleft, hright, hkept⟩

/-- A sign in front of a settled value is carried out or left alone for good. -/
theorem negative_settled {c : Context} {value : Node} (h : value.Settled c) :
    Ensures (negative c value) (Node.Settled c) := by
  unfold negative
  split
  · exact .seq fun number => .ok trivial
  · next hkept => exact .ok ⟨h, hkept⟩

/-- Keeping the parentheses of a settled value gives a settled value. -/
theorem keepParens_settled {c : Context} (parens operand double : Bool) {n : Node}
    (h : n.Settled c) :
    (keepParens c parens operand double n).Settled c := by
  rcases keepParens_cases c parens operand double n with he | he
  · rw [he]
    exact h
  · rw [he]
    exact h

/-- What a variable stands for is settled, if definitions are evaluated to settled values. -/
theorem reference_settled (hd : d.Settles) {c : Context} (hc : c.Valued) (name : String)
    (offset : Nat) :
    Ensures (reference d c name offset) (Node.Settled c) := by
  unfold reference
  split
  · exact .error
  · next definition found =>
    intro v hv
    obtain ⟨inside, hinside, hv⟩ := exists_of_bind_eq_ok hv
    obtain ⟨-, rfl⟩ := Context.inVariable_eq_ok hinside
    refine Node.Settled.mono ?_ v (hd _ _ ?_ (hc.definition found) v hv)
    · exact ⟨rfl, rfl, rfl, Nat.le_refl _⟩
    · exact hc.of_frames rfl

/-- Each value of a row is evaluated to one. -/
theorem evalSplice_eq_evalEach (hd : d.Valued) {c : Context} (hc : c.Valued) (nodes : List Node)
    (h : Node.AreValues nodes) : evalSplice d c nodes = evalEach d c nodes := by
  induction nodes with
  | nil => rfl
  | cons node nodes ih =>
    simp only [evalSplice, evalEach, ih h.2]
    cases hy : eval d c node with
    | error e => rfl
    | ok y =>
      obtain ⟨v, rfl, -⟩ := eval_value hd c node hc h.1 y hy
      rfl

mutual
/-- **A value is evaluated to a settled value.** -/
theorem eval_settled (hv : d.Valued) (hd : d.Settles) :
    ∀ (c : Context) (n : Node), c.Valued → n.IsValue →
    Ensures (eval d c n) fun y => y.toNode.Settled c
  | _, .dimension _, _, _ => .ok trivial
  | _, .expression [] _ _ _, _, _ => .ok (keepParens_settled _ _ _ ⟨nofun, trivial⟩)
  | c, .expression [item] parens operand _, hc, h => by
    have hinside := hc.of_frames (sameScope_insideRow c parens operand).frames
    refine .bind (eval_settled hv hd _ item hinside h.1) fun y hy => ?_
    -- only the item is left, and fewer parentheses are around it than when it was evaluated
    have hsettled := hy.mono (Context.Milder.insideRow_self c parens operand)
    exact .ok (keepParens_settled _ _ _ hsettled)
  | c, .expression (item :: next :: items) parens operand _, hc, h => by
    have hinside := hc.of_frames (sameScope_insideRow c parens operand).frames
    simp only [eval, evalSplice_eq_evalEach hv hinside _ h]
    refine .bind (evalEach_settled hv hd _ (item :: next :: items) hinside h)
      fun vs ⟨hlength, hvs⟩ => ?_
    exact .ok (keepParens_settled _ _ _ ⟨by simp [hlength], hvs⟩)
  | _, .list [], _, _ => .ok ⟨nofun, trivial⟩
  | c, .list [item], hc, h => by
    refine .bind (eval_settled hv hd c item hc h.1) fun y hy => ?_
    exact .ok hy
  | c, .list (item :: next :: items), hc, h => by
    refine .bind (evalEach_settled hv hd c (item :: next :: items) hc h) fun vs ⟨hlength, hvs⟩ => ?_
    exact .ok ⟨by simp [hlength], hvs⟩
  | c, .paren inner, hc, h => by
    refine .bind (eval_settled hv hd c inner hc h) fun y hy => ?_
    exact .ok hy
  | _, .keyword _, _, _ => .ok trivial
  | _, .quoted .., _, _ => .seq fun _ => .ok trivial
  | _, .url _, _, _ => .seq fun _ => .ok trivial
  | c, .reference name offset, hc, _ => by
    refine .bind (reference_settled hd hc name offset) fun v hsettled => ?_
    exact .ok hsettled
  | c, .operation op left right spaced offset, hc, h => by
    refine .bind (eval_settled hv hd c left hc h.1) fun l hl => ?_
    refine .bind (eval_settled hv hd c right hc h.2) fun r hr => ?_
    refine .bind (operation_settled op spaced offset hl hr) fun v hsettled => ?_
    exact .ok hsettled
  | c, .negative inner, hc, h => by
    refine .bind (eval_settled hv hd c inner hc h) fun y hy => ?_
    refine .bind (negative_settled hy) fun v hsettled => ?_
    exact .ok hsettled
  | c, .call name args offset, hc, h => by
    refine .bind (evalEach_settled hv hd (c.inCall (isCalc name)) args (hc.of_frames rfl) h)
      fun vs hvs => ?_
    intro y hy
    obtain ⟨result, hresult, hy⟩ := exists_of_bind_eq_ok hy
    cases hy
    -- where the function has no value for these arguments, it has none for them the next time
    rcases builtin_cases c.style name vs result hresult with rfl | ⟨number, rfl⟩
    · exact ⟨hvs.2, hresult⟩
    · exact trivial
theorem evalEach_settled (hv : d.Valued) (hd : d.Settles) :
    ∀ (c : Context) (nodes : List Node), c.Valued →
    Node.AreValues nodes →
    Ensures (evalEach d c nodes) fun vs => vs.length = nodes.length ∧ Node.AreSettled c vs
  | _, [], _, _ => .ok ⟨rfl, trivial⟩
  | c, node :: nodes, hc, h => by
    refine .bind (eval_settled hv hd c node hc h.1) fun y hy => ?_
    refine .bind (evalEach_settled hv hd c nodes hc h.2) fun vs ⟨hlength, hvs⟩ => ?_
    exact .ok ⟨congrArg Nat.succ hlength, hy, hvs⟩
end

end Evaluation

/-- At any depth, values are evaluated to settled values, by induction on the bound. -/
theorem Deeper.within_settles : ∀ k, (Deeper.within k).Settles
  | 0 => fun _ _ _ _ => .error
  | k + 1 => fun c n hc hn =>
    .bind (eval_settled (within_valued k) (within_settles k) c n hc hn) fun _ hy => .ok hy

/-! ## Evaluating settled values -/

namespace Node

mutual
/-- Whether some row in a value stands in parentheses that evaluation writes: those of an operand,
where operators are left alone. -/
def wrapsRow (c : Context) : Node → Bool
  | expression items parens operand _ =>
    (parens && operand && !c.computes none) || wrapsRowIn (insideRow c parens operand) items
  | list items => wrapsRowIn c items
  | paren inner => wrapsRow c inner
  | operation _ left right _ _ => wrapsRow c left || wrapsRow c right
  | negative inner => wrapsRow c inner
  | call name args _ => wrapsRowIn (c.inCall (isCalc name)) args
  | _ => false
/-- Whether some row in one of several values stands in such parentheses. -/
def wrapsRowIn (c : Context) : List Node → Bool
  | [] => false
  | node :: nodes => wrapsRow c node || wrapsRowIn c nodes
end

end Node

namespace Evaluation

variable {d : Deeper}

/-- An operation is kept as it is if it is not to be carried out on two numbers. -/
theorem operation_kept {c : Context} {op : Operator} {left right : Node} {spaced : Bool}
    {offset : Nat} (h : ∀ a b, c.computes (some op) → left = .dimension a → right ≠ .dimension b) :
    operation c op left right spaced offset = .ok (.operation op left right spaced offset) := by
  unfold operation
  split
  · next hop => exact absurd rfl (h _ _ hop rfl)
  · rfl

theorem negative_kept {c : Context} {value : Node}
    (h : ∀ a, c.computes (some .mul) → value ≠ .dimension a) :
    negative c value = .ok (.negative value) := by
  unfold negative
  split
  · next hop => exact absurd rfl (h _ hop)
  · rfl

/-- The parentheses of a row are written unless operators are carried out or they are no operand. -/
theorem keepParens_row {c : Context} {parens operand tight : Bool} {items : List Node} :
    keepParens c parens operand false (.expression items parens operand tight) =
        .expression items parens operand tight ↔
      (parens && operand && !c.computes none) = false := by
  unfold keepParens
  cases hw : parens && operand && !c.computes none <;> simp [Node.dimension?]

mutual
/-- **A settled value without holes stays as it is if no parentheses are written around its
rows.** -/
theorem eval_of_settled :
    ∀ (c : Context) (n : Node), n.Settled c → (n.Throughout fun m => m.asked = []) →
    n.wrapsRow c = false → eval d c n = .ok (.one n)
  | _, .dimension _, _, _, _ => rfl
  | c, .expression [] parens operand tight, _, _, hrow => by
    obtain ⟨hw, -⟩ := Bool.or_eq_false_iff.mp hrow
    show Except.ok (Yield.one _) = _
    rw [keepParens_row.mpr hw]
  | _, .expression [_] _ _ _, h, _, _ => absurd rfl h.1
  | c, .expression (item :: next :: items) parens operand tight, h, hholes, hrow => by
    obtain ⟨hw, hrows⟩ := Bool.or_eq_false_iff.mp hrow
    have hitems : evalSplice d (insideRow c parens operand) (item :: next :: items) =
        .ok (item :: next :: items) :=
      evalSplice_of_settled _ _ h.2 (fun _ hm => hholes.part hm) hrows
    simp only [eval, hitems]
    show Except.ok (Yield.one _) = _
    rw [keepParens_row.mpr hw]
  | _, .list [], _, _, _ => rfl
  | _, .list [_], h, _, _ => absurd rfl h.1
  | c, .list (item :: next :: items), h, hholes, hrow => by
    have hitems : evalEach d c (item :: next :: items) = .ok (item :: next :: items) :=
      evalEach_of_settled _ _ h.2 (fun _ hm => hholes.part hm) hrow
    simp only [eval, hitems]
    rfl
  | c, .paren inner, h, hholes, hrow => by
    simp only [eval, eval_of_settled c inner h (hholes.part List.mem_cons_self) hrow]
    rfl
  | _, .keyword _, _, _, _ => rfl
  | c, .quoted _ text _, _, hholes, _ => by
    have htext : Text.asked text = [] := hholes.self
    simp only [eval, fill_of_noHoles htext]
    rfl
  | c, .url text, _, hholes, _ => by
    have htext : Text.asked text = [] := hholes.self
    simp only [eval, fill_of_noHoles htext]
    rfl
  | c, .operation op left right spaced offset, ⟨hleft, hright, hkept⟩, hholes, hrow => by
    obtain ⟨hl, hr⟩ := Bool.or_eq_false_iff.mp hrow
    simp only [eval, eval_of_settled c left hleft (hholes.part List.mem_cons_self) hl,
      eval_of_settled c right hright (hholes.part (List.mem_cons_of_mem _ List.mem_cons_self)) hr]
    show (operation c op left right spaced offset >>= _) = _
    rw [operation_kept hkept]
    rfl
  | c, .negative inner, ⟨hinner, hkept⟩, hholes, hrow => by
    simp only [eval, eval_of_settled c inner hinner (hholes.part List.mem_cons_self) hrow]
    show (negative c inner >>= _) = _
    rw [negative_kept hkept]
    rfl
  | c, .call name args offset, ⟨hargs, hkept⟩, hholes, hrow => by
    have hvalues : evalEach d (c.inCall (isCalc name)) args = .ok args :=
      evalEach_of_settled _ _ hargs (fun _ hm => hholes.part hm) hrow
    simp only [eval, hvalues]
    show (builtin c.style name args >>= _) = _
    rw [hkept]
    rfl
/-- Settled values without holes and without rows to be wrapped are left as they are, one by one. -/
theorem evalEach_of_settled : ∀ (c : Context) (nodes : List Node), Node.AreSettled c nodes →
    (∀ n ∈ nodes, n.Throughout fun m => m.asked = []) → Node.wrapsRowIn c nodes = false →
    evalEach d c nodes = .ok nodes
  | _, [], _, _, _ => rfl
  | c, node :: nodes, h, hholes, hrow => by
    obtain ⟨hhead, htail⟩ := List.forall_mem_cons.mp hholes
    obtain ⟨hrow, hrows⟩ := Bool.or_eq_false_iff.mp hrow
    simp only [evalEach, eval_of_settled c node h.1 hhead hrow,
      evalEach_of_settled c nodes h.2 htail hrows]
    rfl
theorem evalSplice_of_settled : ∀ (c : Context) (nodes : List Node), Node.AreSettled c nodes →
    (∀ n ∈ nodes, n.Throughout fun m => m.asked = []) → Node.wrapsRowIn c nodes = false →
    evalSplice d c nodes = .ok nodes
  | _, [], _, _, _ => rfl
  | c, node :: nodes, h, hholes, hrow => by
    obtain ⟨hhead, htail⟩ := List.forall_mem_cons.mp hholes
    obtain ⟨hrow, hrows⟩ := Bool.or_eq_false_iff.mp hrow
    simp only [evalSplice, eval_of_settled c node h.1 hhead hrow,
      evalSplice_of_settled c nodes h.2 htail hrows]
    rfl
end

/-- A value is evaluated to a single one. -/
theorem eval_eq_one (hd : d.Valued) {c : Context} {n v : Node} {y : Yield} (hc : c.Valued)
    (hn : n.IsValue) (h : eval d c n = .ok y) (hy : y.toNode = v) : eval d c n = .ok (.one v) := by
  obtain ⟨v, rfl, -⟩ := eval_value hd c n hc hn y h
  rw [h, ← hy]
  rfl

mutual
/-- **Parentheses that are written around a row make a value another one.** -/
theorem wrapsRow_of_eval (hd : d.Valued) :
    ∀ (c : Context) (n : Node), c.Valued → n.IsValue → n.Settled c →
    eval d c n = .ok (.one n) → n.wrapsRow c = false
  | _, .dimension _, _, _, _, _ => rfl
  | c, .expression [] parens operand tight, _, _, _, he => by
    have hrow := keepParens_row.mp (Yield.one.inj (Except.ok.inj he))
    exact Bool.or_eq_false_iff.mpr ⟨hrow, rfl⟩
  | _, .expression [_] _ _ _, _, _, h, _ => absurd rfl h.1
  | c, .expression (item :: next :: items) parens operand tight, hc, hn, h, he => by
    obtain ⟨vs, hvs, he⟩ := exists_of_bind_eq_ok he
    have hrow := Yield.one.inj (Except.ok.inj he)
    have hinside := hc.of_frames (sameScope_insideRow c parens operand).frames
    rw [evalSplice_eq_evalEach hd hinside _ hn] at hvs
    rcases keepParens_cases c parens operand false
        (.expression vs parens operand tight) with hkept | hkept
    · rw [hkept] at hrow
      obtain rfl : vs = item :: next :: items := (Node.expression.inj hrow).1
      refine Bool.or_eq_false_iff.mpr ⟨keepParens_row.mp hkept, ?_⟩
      exact wrapsRowIn_of_evalEach hd _ (item :: next :: items) hinside hn h.2 hvs
    · -- with its parentheses written it is no row any more
      rw [hkept] at hrow
      cases hrow
  | _, .list [], _, _, _, _ => rfl
  | _, .list [_], _, _, h, _ => absurd rfl h.1
  | c, .list (item :: next :: items), hc, hn, h, he => by
    obtain ⟨vs, hvs, he⟩ := exists_of_bind_eq_ok he
    obtain rfl : vs = item :: next :: items := Node.list.inj (Yield.one.inj (Except.ok.inj he))
    exact wrapsRowIn_of_evalEach hd c (item :: next :: items) hc hn h.2 hvs
  | c, .paren inner, hc, hn, h, he => by
    obtain ⟨y, hy, he⟩ := exists_of_bind_eq_ok he
    have hinner : y.toNode = inner := Node.paren.inj (Yield.one.inj (Except.ok.inj he))
    exact wrapsRow_of_eval hd c inner hc hn h (eval_eq_one hd hc hn hy hinner)
  | _, .keyword _, _, _, _, _ | _, .quoted .., _, _, _, _ | _, .url _, _, _, _, _ => rfl
  | c, .operation op left right spaced offset, hc, hn, h, he => by
    obtain ⟨l, hl, he⟩ := exists_of_bind_eq_ok he
    obtain ⟨r, hr, he⟩ := exists_of_bind_eq_ok he
    obtain ⟨v, hv, he⟩ := exists_of_bind_eq_ok he
    obtain rfl := Yield.one.inj (Except.ok.inj he)
    rcases operation_cases c op l.toNode r.toNode spaced offset _ hv with ⟨number, hnumber⟩ | hkept
    · cases hnumber
    · obtain ⟨-, hleft, hright, -⟩ := Node.operation.inj hkept
      refine Bool.or_eq_false_iff.mpr ⟨?_, ?_⟩
      · exact wrapsRow_of_eval hd c left hc hn.1 h.1 (eval_eq_one hd hc hn.1 hl hleft.symm)
      · exact wrapsRow_of_eval hd c right hc hn.2 h.2.1 (eval_eq_one hd hc hn.2 hr hright.symm)
  | c, .negative inner, hc, hn, h, he => by
    obtain ⟨y, hy, he⟩ := exists_of_bind_eq_ok he
    obtain ⟨v, hv, he⟩ := exists_of_bind_eq_ok he
    obtain rfl := Yield.one.inj (Except.ok.inj he)
    rcases negative_cases c y.toNode _ hv with ⟨number, hnumber⟩ | hkept
    · cases hnumber
    · have hinner : y.toNode = inner := (Node.negative.inj hkept).symm
      exact wrapsRow_of_eval hd c inner hc hn h.1 (eval_eq_one hd hc hn hy hinner)
  | c, .call name args offset, hc, hn, h, he => by
    obtain ⟨vs, hvs, he⟩ := exists_of_bind_eq_ok he
    obtain ⟨result, hresult, he⟩ := exists_of_bind_eq_ok he
    have hcall := Yield.one.inj (Except.ok.inj he)
    rcases builtin_cases c.style name vs result hresult with rfl | ⟨number, rfl⟩
    · rw [(Node.call.inj hcall).2.1] at hvs
      exact wrapsRowIn_of_evalEach hd _ args (hc.of_frames rfl) hn h.1 hvs
    · cases hcall
/-- If settled values are left as they are, no row among them was to be wrapped. -/
theorem wrapsRowIn_of_evalEach (hd : d.Valued) : ∀ (c : Context) (nodes : List Node), c.Valued →
    Node.AreValues nodes → Node.AreSettled c nodes → evalEach d c nodes = .ok nodes →
    Node.wrapsRowIn c nodes = false
  | _, [], _, _, _, _ => rfl
  | c, node :: nodes, hc, hn, h, he => by
    obtain ⟨y, hy, he⟩ := exists_of_bind_eq_ok he
    obtain ⟨vs, hvs, he⟩ := exists_of_bind_eq_ok he
    obtain ⟨hnode, hnodes⟩ := List.cons.inj (Except.ok.inj he)
    rw [hnodes] at hvs
    refine Bool.or_eq_false_iff.mpr ⟨?_, wrapsRowIn_of_evalEach hd c nodes hc hn.2 h.2 hvs⟩
    exact wrapsRow_of_eval hd c node hc hn.1 h.1 (eval_eq_one hd hc hn.1 hy hnode)
end

end Evaluation

/-! ## Stylesheets -/

namespace Ruleset

/-- **An evaluated value is evaluated to itself**, wherever evaluation comes to in a stylesheet that
was read, if it has no holes and no row in it stands in parentheses that are written there.  Without
holes the latter is necessary too. -/
theorem eval_again {source : String} {r : Ruleset} (hread : ofText source = .ok r) {o : Options}
    {s : Config} (hs : Config.Reaches .unbounded ⟨.ofOptions o, r.toNode⟩ s) {n : Node}
    (hn : n.IsValue) {y : Yield} (hy : s.context.eval n = .ok y) :
    ∃ v, y = .one v ∧ ((v.Throughout fun m => m.asked = []) →
      (s.context.eval v = .ok (.one v) ↔ v.wrapsRow s.context = false)) := by
  have hc := valued_of_reaches hread hs
  obtain ⟨v, rfl, hv⟩ := eval_value (Deeper.within_valued _) s.context n hc hn y hy
  have hsettled : v.Settled s.context :=
    eval_settled (Deeper.within_valued _) (Deeper.within_settles _) s.context n hc hn _ hy
  refine ⟨v, rfl, fun hholes => ⟨?_, eval_of_settled s.context v hsettled hholes⟩⟩
  exact wrapsRow_of_eval (Deeper.within_valued _) s.context v hc hv hsettled

/-- Where operators are left alone, the parentheses of a factor are written the first time and not
again. -/
theorem eval_again_factor : ∃ r, ofText ".c\x7bw:(a + b)*c\x7d" = .ok r ∧
    let c := (Context.ofOptions { math := .parens }).inFrame (.ofRules r.rules)
    let product (left : Node) := Node.operation .mul left (.keyword "c") true 0
    let sum := Node.operation .add (.keyword "a") (.keyword "b") true 0
    let v := product (.paren sum)
    c.eval (product (.expression [sum] true true false)) = .ok (.one v) ∧
      c.eval v = .ok (.one v) := by
  have hcheck : (ofText ".c\x7bw:(a + b)*c\x7d").toOption.map (fun r => (r.root, r.rules.length)) =
      some (true, 1) := by decide +kernel
  cases hread : ofText ".c\x7bw:(a + b)*c\x7d" with
  | error e =>
    rw [hread] at hcheck
    cases hcheck
  | ok r =>
    rw [hread] at hcheck
    obtain ⟨selectors, rules, root⟩ := r
    obtain ⟨rfl, hlength⟩ := Prod.mk.inj (Option.some.inj hcheck)
    obtain ⟨rule, rfl⟩ := List.length_eq_one_iff.mp hlength
    refine ⟨_, rfl, ?_⟩
    intro c product sum v
    have hs : Config.Reaches .unbounded
        ⟨.ofOptions { math := .parens }, .ruleset selectors [rule] true⟩ ⟨c, rule⟩ :=
      .single (.inside (.sheetRule List.mem_cons_self))
    have hn : (product (.expression [sum] true true false)).IsValue := by
      simp [product, sum, Node.IsValue, Node.AreValues]
    have hy : c.eval (product (.expression [sum] true true false)) = .ok (.one v) := rfl
    obtain ⟨_, hv, hagain⟩ := eval_again hread hs hn hy
    cases hv
    exact ⟨hy, (hagain (by decide +kernel)).mpr rfl⟩

/-- **Parentheses around two values are written twice, and a hole is filled that no text had**: what
a parameter stands for is not the value of the argument. -/
theorem evaluate_again_changed :
    let css (source : String) := do
      let r ← (← ofText source).evaluate (.ofOptions {})
      Css.stylesheet ⟨none, false, true⟩ true r.rules
    (css ".m(@x)\x7bw:@x\x7d.c\x7b.m(calc((a b)*2));v:calc((a b)*2)\x7d").toOption =
        some ".c\x7bw:calc(((a b))*2);v:calc((a b)*2)\x7d" ∧
      (css
  "@y:~\"@\";@z:k;.m(@x)\x7bw:@x\x7d.c\x7b.m(\"@\x7by\x7d\x7bz\x7d\");v:\"@\x7by\x7d\x7bz\x7d\"\x7d"
      ).toOption =
        some ".c\x7bw:\"k\";v:\"@\x7bz\x7d\"\x7d" := by
  decide +kernel

end Ruleset

end LessCss
