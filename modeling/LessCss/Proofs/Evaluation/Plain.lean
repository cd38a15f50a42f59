import LessCss.Evaluation
import LessCss.Proofs.Evaluation.Results

/-!
# Evaluated nodes are plain

A node is plain if nothing is left to evaluate in it: no variable, no mixin, no call or argument of
one, and no definition, at any depth.  Whatever evaluation gives is plain, provided that what it
looks up is evaluated to something plain (`Evaluation.eval_plain`), and so all that evaluation
within a bound gives is plain (`Deeper.within_plain`).  A plain node defines no names.
-/

namespace LessCss

namespace Node

mutual
/-- Nothing is left to evaluate in a node. -/
def Plain : Node → Prop
  | expression items _ _ _ => PlainAll items
  | list items => PlainAll items
  | paren inner => Plain inner
  | operation _ left right _ _ => Plain left ∧ Plain right
  | negative inner => Plain inner
  | call _ args _ => PlainAll args
  | declaration _ value _ isVariable _ => isVariable = false ∧ Plain value
  | ruleset _ rules _ => PlainAll rules
  | atRule _ header rules => PlainHeader header ∧ PlainBlock rules
  | media features rules => Plain features ∧ PlainAll rules
  | importRule path features _ => Plain path ∧ PlainHeader features
  | reference .. | mixin .. | mixinCall .. | argument .. => False
  | dimension _ | comment .. | keyword _ | quoted .. | url _ | selector _ => True
/-- Nothing is left to evaluate in a row of nodes. -/
def PlainAll : List Node → Prop
  | [] => True
  | node :: nodes => Plain node ∧ PlainAll nodes
/-- Nothing is left to evaluate in a node that may be missing. -/
def PlainHeader : Option Node → Prop
  | none => True
  | some node => Plain node
/-- Nothing is left to evaluate in a block that may be missing. -/
def PlainBlock : Option (List Node) → Prop
  | none => True
  | some nodes => PlainAll nodes
end

/-- A row of nodes is plain just if each of its nodes is. -/
theorem plainAll_iff {nodes : List Node} : PlainAll nodes ↔ ∀ n ∈ nodes, n.Plain := by
  induction nodes with
  | nil => simp [PlainAll]
  | cons node nodes ih => simp [PlainAll, ih]

theorem PlainAll.append {a b : List Node} (ha : PlainAll a) (hb : PlainAll b) :
    PlainAll (a ++ b) := by
  rw [plainAll_iff] at *
  intro n hn
  exact (List.mem_append.mp hn).elim (ha n) (hb n)

theorem PlainAll.filter {nodes : List Node} (h : PlainAll nodes) (p : Node → Bool) :
    PlainAll (nodes.filter p) :=
  plainAll_iff.mpr fun n hn => plainAll_iff.mp h n (List.mem_filter.mp hn).1

mutual
/-- A plain node defines no names. -/
theorem definedNames_of_plain : ∀ n : Node, n.Plain → n.definedNames = []
  | expression items _ _ _, h => definedNamesAll_of_plain items h
  | list items, h => definedNamesAll_of_plain items h
  | paren inner, h => definedNames_of_plain inner h
  | operation _ left right _ _, h =>
    List.append_eq_nil_iff.mpr ⟨definedNames_of_plain left h.1, definedNames_of_plain right h.2⟩
  | negative inner, h => definedNames_of_plain inner h
  | call _ args _, h => definedNamesAll_of_plain args h
  | declaration _ value _ false _, h => definedNames_of_plain value h.2
  | ruleset _ rules _, h => definedNamesAll_of_plain rules h
  | atRule _ header rules, h =>
    List.append_eq_nil_iff.mpr
      ⟨definedNamesHeader_of_plain header h.1, definedNamesBlock_of_plain rules h.2⟩
  | media features rules, h =>
    List.append_eq_nil_iff.mpr
      ⟨definedNames_of_plain features h.1, definedNamesAll_of_plain rules h.2⟩
  | importRule path features _, h =>
    List.append_eq_nil_iff.mpr
      ⟨definedNames_of_plain path h.1, definedNamesHeader_of_plain features h.2⟩
  | dimension _, _ | comment .., _ | keyword _, _ | quoted .., _ | url _, _ | selector _, _ => rfl
theorem definedNamesAll_of_plain : ∀ nodes : List Node, PlainAll nodes → definedNamesAll nodes = []
  | [], _ => rfl
  | node :: nodes, h =>
    List.append_eq_nil_iff.mpr ⟨definedNames_of_plain node h.1, definedNamesAll_of_plain nodes h.2⟩
theorem definedNamesHeader_of_plain :
    ∀ header : Option Node, PlainHeader header → definedNamesHeader header = []
  | none, _ => rfl
  | some header, h => definedNames_of_plain header h
theorem definedNamesBlock_of_plain :
    ∀ rules : Option (List Node), PlainBlock rules → definedNamesBlock rules = []
  | none, _ => rfl
  | some rules, h => definedNamesAll_of_plain rules h
end

end Node

/-! ## Results -/

/-- What is looked up is evaluated to something plain. -/
structure Deeper.Plain (d : Deeper) : Prop where
  node : ∀ c n, Ensures (d.node c n) Node.Plain
  rules : ∀ c rules, Ensures (d.rules c rules) Node.PlainAll

/-- Every node of a result is plain. -/
def Yield.Plain (y : Yield) : Prop := Node.PlainAll y.toList

theorem Yield.Plain.toNode : ∀ {y : Yield}, y.Plain → y.toNode.Plain
  | .one _, h => h.1
  | .many _, h => h
  | .nothing, h => h

theorem Yield.Plain.one {n : Node} (h : n.Plain) : (Yield.one n).Plain := ⟨h, trivial⟩

namespace Evaluation

/-! ## Parts of evaluation -/

/-- The result of an operator is a number, or the operation is left as it is. -/
theorem operation_cases (c : Context) (op : Operator) (left right : Node) (spaced : Bool)
    (offset : Nat) :
    Ensures (operation c op left right spaced offset) fun n =>
      (∃ number, n = .dimension number) ∨ n = .operation op left right spaced offset := by
  unfold operation
  split
  · exact .seq fun number => .ok (.inl ⟨number, rfl⟩)
  · exact .ok (.inr rfl)

/-- The negative of a value is a number, or it is left as it is. -/
theorem negative_cases (c : Context) (value : Node) :
    Ensures (negative c value) fun n => (∃ number, n = .dimension number) ∨
    n = .negative value := by
  unfold negative
  split
  · exact .seq fun number => .ok (.inl ⟨number, rfl⟩)
  · exact .ok (.inr rfl)

/-- The value of a function that is built in is a number. -/
theorem builtin_cases (s : Style) (name : String) (args : List Node) :
    Ensures (builtin s name args) fun result => result = none ∨ ∃ number,
      result = some (.dimension number) := by
  have hextremum : ∀ wanted,
      extremumOf wanted args = none ∨ ∃ number,
        extremumOf wanted args = some (.dimension number) := by
    intro wanted
    cases h : extremumOf wanted args with
    | none => exact .inl rfl
    | some n =>
      obtain ⟨ds, -, hds⟩ := Option.bind_eq_some_iff.mp h
      obtain ⟨number, -, rfl⟩ := Option.map_eq_some_iff.mp hds
      exact .inr ⟨number, rfl⟩
  unfold builtin
  split
  · exact .ok (hextremum .lt)
  · exact .ok (hextremum .gt)
  · unfold changeUnit
    split
    · exact .ok (.inr ⟨_, rfl⟩)
    · exact .seq fun unit => .ok (.inr ⟨_, rfl⟩)
    · exact .ok (.inl rfl)
  · unfold percentage
    split
    · exact .ok (.inr ⟨_, rfl⟩)
    · exact .ok (.inl rfl)
  · exact .ok (.inl rfl)

/-- Parentheses are kept around a result or dropped, and nothing else happens to it. -/
theorem keepParens_cases (c : Context) (parens operand double : Bool) (n : Node) :
    keepParens c parens operand double n = n ∨ keepParens c parens operand double n = .paren n := by
  unfold keepParens
  split
  · exact .inr rfl
  · exact .inl rfl

/-- Around a number parentheses are always dropped. -/
theorem keepParens_dimension {c : Context} (parens operand double : Bool) (d : Dimension) :
    keepParens c parens operand double (.dimension d) = .dimension d := by
  simp [keepParens, Node.dimension?]

/-- A variable stands for a plain node. -/
theorem reference_plain {d : Deeper} (hd : d.Plain) (c : Context) (name : String) (offset : Nat) :
    Ensures (reference d c name offset) Node.Plain := by
  unfold reference
  split
  · exact .error
  · exact .seq fun inside => hd.node inside _

/-- Keeping parentheses leaves a result plain. -/
theorem keepParens_plain (c : Context) (parens operand double : Bool) {n : Node} (h : n.Plain) :
    (keepParens c parens operand double n).Plain := by
  rcases keepParens_cases c parens operand double n with he | he
  · rw [he]
    exact h
  · rw [he]
    exact h

theorem wrap_plain (selectors : List Selector) {rules : List Node} (h : Node.PlainAll rules) :
    Node.PlainAll (wrap selectors rules) := by
  unfold wrap
  split
  · exact h
  · dsimp only
    split
    · exact h.filter _
    · exact ⟨h.filter _, h.filter _⟩

theorem wrapAtRule_plain (c : Context) (name : String) {rules : List Node}
    (h : Node.PlainAll rules) :
    Node.PlainAll (wrapAtRule c name rules) := by
  unfold wrapAtRule
  split
  · exact wrap_plain _ h
  · exact h

mutual
theorem makeImportant_plain : ∀ n : Node, n.Plain → (makeImportant n).Plain
  | .declaration .., h => h
  | .ruleset _ rules _, h => makeAllImportant_plain rules h
  | .media _ rules, h => ⟨h.1, makeAllImportant_plain rules h.2⟩
  | .dimension _, h | .expression .., h | .list _, h | .paren _, h | .comment .., h | .keyword _, h
  | .quoted .., h | .url _, h | .operation .., h | .negative _, h | .call .., h | .selector _, h
  | .atRule .., h | .importRule .., h => h
theorem makeAllImportant_plain : ∀ nodes : List Node, Node.PlainAll nodes →
    Node.PlainAll (makeAllImportant nodes)
  | [], _ => trivial
  | node :: nodes, h => ⟨makeImportant_plain node h.1, makeAllImportant_plain nodes h.2⟩
end

/-- A call of a mixin gives plain nodes. -/
theorem expand_plain {d : Deeper} (hd : d.Plain) (c : Context) (m : Mixin) (name : String)
    (args values : List Node) (important : Bool) (offset : Nat) :
    Ensures (expand d c m name args values important offset) Node.PlainAll := by
  refine .seq fun frame => .seq fun inside => .bind (hd.rules _ _) fun rules hrules => .ok ?_
  split
  · exact makeAllImportant_plain rules hrules
  · exact hrules

theorem ruleset_plain {d : Deeper} {c : Context} {selectors : List Selector} {root : Bool}
    {rules : Context → Except Error (List Node)}
    (h : ∀ inside, Ensures (rules inside) Node.PlainAll) :
    Ensures (ruleset d c selectors root rules) fun r => r.toNode.Plain := by
  unfold ruleset
  split
  · exact .bind (h c) fun _ hr => .ok hr
  · exact .seq fun own => .bind (h _) fun _ hr => .ok hr

/-- A call leaves something only if its arguments fit, and then the rules of the mixin in the scope
of them. -/
theorem exists_of_expand {d : Deeper} {c : Context} {m : Mixin} {name : String}
    {args values : List Node} {important : Bool} {offset : Nat} {results : List Node}
    (h : expand d c m name args values important offset = .ok results) :
    ∃ frame inside rules, argumentFrame m name offset ((args.map argumentName?).zip values) =
      .ok frame ∧
      c.inMixin name = .ok inside ∧ d.rules (inside.inFrame frame) m.rules = .ok rules ∧
      results = if important then makeAllImportant rules else rules := by
  obtain ⟨frame, hframe, h⟩ := exists_of_bind_eq_ok h
  obtain ⟨inside, hinside, h⟩ := exists_of_bind_eq_ok h
  obtain ⟨rules, hrules, h⟩ := exists_of_bind_eq_ok h
  cases h
  exact ⟨frame, inside, rules, hframe, hinside, hrules, rfl⟩

/-! ## Nodes -/

/-- A rule set with selectors has a value only if its selectors can be filled and its rules have
values under them. -/
theorem exists_of_eval_ruleset {d : Deeper} {c : Context} {selectors : List Selector}
    {rules : List Node} {y : Yield} (h : eval d c (.ruleset selectors rules false) = .ok y) :
    ∃ own results, selectors.mapM (fillSelector d c) = .ok own ∧
      evalSplice d
        ((c.underSelectors (Selector.joinAll c.selectors own)).inFrame (.ofRules rules)) rules =
        .ok results ∧
      y = .one (.ruleset (Selector.joinAll c.selectors own) results false) := by
  obtain ⟨r, hr, hy⟩ := exists_of_bind_eq_ok h
  obtain ⟨own, hown, hr⟩ := exists_of_bind_eq_ok hr
  obtain ⟨results, hresults, hr⟩ := exists_of_bind_eq_ok hr
  cases hr
  cases hy
  exact ⟨own, results, hown, hresults, rfl⟩

mutual
/-- **What a node evaluates to is plain.** -/
theorem eval_plain {d : Deeper} (hd : d.Plain) :
    ∀ (c : Context) (n : Node), Ensures (eval d c n) Yield.Plain
  | _, .dimension _ | _, .comment .. | _, .keyword _ | _, .selector _ => .ok (.one trivial)
  -- definitions leave nothing behind
  | _, .declaration _ _ _ true _ | _, .mixin .. => .ok trivial
  | c, .expression [] _ _ _ => .ok (.one (keepParens_plain c _ _ _ trivial))
  | c, .expression [item] parens operand _ => by
    refine .bind (eval_plain hd (insideRow c parens operand) item) fun y hy => ?_
    exact .ok (.one (keepParens_plain c _ _ _ hy.toNode))
  | c, .expression (item :: next :: items) parens operand _ => by
    refine .bind (evalSplice_plain hd (insideRow c parens operand) (item :: next :: items))
      fun vs hvs => ?_
    exact .ok (.one (keepParens_plain c _ _ _ hvs))
  | _, .list [] => .ok (.one trivial)
  | c, .list [item] => by
    refine .bind (eval_plain hd c item) fun y hy => ?_
    exact .ok (.one hy.toNode)
  | c, .list (item :: next :: items) => by
    refine .bind (evalEach_plain hd c (item :: next :: items)) fun vs hvs => ?_
    exact .ok (.one hvs)
  | c, .paren inner => by
    refine .bind (eval_plain hd c inner) fun y hy => ?_
    exact .ok (.one hy.toNode)
  | _, .quoted .. | _, .url _ => .seq fun _ => .ok (.one trivial)
  | c, .reference name offset => by
    refine .bind (reference_plain hd c name offset) fun v hv => ?_
    exact .ok (.one hv)
  | c, .operation op left right spaced offset => by
    refine .bind (eval_plain hd c left) fun l hl => ?_
    refine .bind (eval_plain hd c right) fun r hr => ?_
    refine .bind (operation_cases c op l.toNode r.toNode spaced offset) fun n hn => .ok (.one ?_)
    rcases hn with ⟨number, rfl⟩ | rfl
    · trivial
    · exact ⟨hl.toNode, hr.toNode⟩
  | c, .negative inner => by
    refine .bind (eval_plain hd c inner) fun y hy => ?_
    refine .bind (negative_cases c y.toNode) fun n hn => .ok (.one ?_)
    rcases hn with ⟨number, rfl⟩ | rfl
    · trivial
    · exact hy.toNode
  | c, .call name args offset => by
    refine .bind (evalEach_plain hd (c.inCall (isCalc name)) args) fun vs hvs => ?_
    refine .bind (builtin_cases c.style name vs) fun result hresult => .ok (.one ?_)
    rcases hresult with rfl | ⟨number, rfl⟩
    · exact hvs
    · trivial
  | c, .declaration name value _ false offset => by
    refine .seq fun name => ?_
    refine .bind ((eval_plain hd (forProperty c name) value).mapError _) fun y hy => ?_
    exact .ok (.one ⟨rfl, hy.toNode⟩)
  | c, .ruleset selectors rules root => by
    have hrules := fun inside : Context =>
      evalSplice_plain hd (inside.inFrame (.ofRules rules)) rules
    refine .bind (ruleset_plain hrules) fun r hr => ?_
    exact .ok (.one hr)
  | c, .atRule _ header none => by
    refine .bind (evalHeader_plain hd c header) fun header hheader => ?_
    exact .ok (.one ⟨hheader, trivial⟩)
  | c, .atRule name header (some rules) => by
    refine .bind (evalHeader_plain hd c header) fun header hheader => ?_
    refine .bind (evalSplice_plain hd ((insideAtRule c name).inFrame (.ofRules rules)) rules)
      fun rs hrs => ?_
    exact .ok (.one ⟨hheader, wrapAtRule_plain c name hrs⟩)
  | c, .media features rules => by
    refine .bind (eval_plain hd c features) fun y hy => ?_
    refine .bind (evalSplice_plain hd (c.inFrame (.ofRules rules)) rules) fun rs hrs => ?_
    exact .ok (.one ⟨hy.toNode, wrap_plain c.selectors hrs⟩)
  | c, .importRule path features _ => by
    refine .bind (eval_plain hd c path) fun y hy => ?_
    refine .bind (evalHeader_plain hd c features) fun header hheader => ?_
    exact .ok (.one ⟨hy.toNode, hheader⟩)
  | c, .mixinCall name args important offset => by
    unfold eval
    split
    · exact .error
    · next m _ =>
      refine .seq fun values => ?_
      refine .bind (expand_plain hd c m name args values important offset) fun rs hrs => ?_
      exact .ok hrs
  | c, .argument _ value => eval_plain hd c value
theorem evalEach_plain {d : Deeper} (hd : d.Plain) :
    ∀ (c : Context) (nodes : List Node), Ensures (evalEach d c nodes) Node.PlainAll
  | _, [] => .ok trivial
  | c, node :: nodes => by
    refine .bind (eval_plain hd c node) fun y hy => ?_
    refine .bind (evalEach_plain hd c nodes) fun vs hvs => ?_
    exact .ok ⟨hy.toNode, hvs⟩
theorem evalSplice_plain {d : Deeper} (hd : d.Plain) :
    ∀ (c : Context) (nodes : List Node), Ensures (evalSplice d c nodes) Node.PlainAll
  | _, [] => .ok trivial
  | c, node :: nodes => by
    refine .bind (eval_plain hd c node) fun y hy => ?_
    refine .bind (evalSplice_plain hd c nodes) fun vs hvs => ?_
    exact .ok (hy.append hvs)
theorem evalHeader_plain {d : Deeper} (hd : d.Plain) :
    ∀ (c : Context) (header : Option Node), Ensures (evalHeader d c header) Node.PlainHeader
  | _, none => .ok trivial
  | c, some header => by
    refine .bind (eval_plain hd c header) fun y hy => ?_
    exact .ok hy.toNode
end

end Evaluation

/-- What is looked up within a bound is evaluated to something plain. -/
theorem Deeper.within_plain : ∀ n, (Deeper.within n).Plain
  | 0 => ⟨fun _ _ => .error, fun _ _ => .error⟩
  | n + 1 =>
    { node := fun c node =>
        .bind (Evaluation.eval_plain (within_plain n) c node) fun _ h => .ok h.toNode
      rules := fun _ _ => Evaluation.evalSplice_plain (within_plain n) _ _ }

end LessCss
