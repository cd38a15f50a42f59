import LessCss.Proofs.Evaluation.Results
import LessCss.Proofs.Parsing.Fidelity
import LessCss.Proofs.Parsing.Finding
import LessCss.Reading.Statement

/-!
# Values and selectors can be read

Whatever the parser finds as a value, an argument, a media query or a selector can be read: no part
is missing, every sign is that of an operator, and every number is one.  Each lemma goes along the
definition of a parser (`Parser.Finds`) and, where it has all parts in hand, along the function that
reads them.
-/

namespace LessCss

@[simp] theorem Tree.phrase?_leaf (x : Token) : (Tree.leaf x).phrase? = none := rfl

@[simp] theorem Tree.phrase?_node (p : Phrase) (ts : List Tree) :
    (Tree.node p ts).phrase? = some p := rfl

/-- A phrase of a given sort that can be read. -/
structure Tree.Reads {α : Type} (phrase : Phrase) (read : Tree → Except Error α) (t : Tree) :
    Prop where
  phrase_eq : t.phrase? = some phrase
  succeeds : Succeeds (read t)

namespace Reading

/-- A token, or a phrase of which `P` holds. -/
def TokenOr (P : Tree → Prop) (t : Tree) : Prop := (∃ x, t = .leaf x) ∨ P t

/-- What is a phrase is no token. -/
theorem TokenOr.of_phrase {P : Tree → Prop} {t : Tree} (h : TokenOr P t) {p : Phrase}
    (hp : t.phrase? = some p) : P t := by
  rcases h with ⟨x, rfl⟩ | h
  · cases hp
  · exact h

theorem mem_nodesOf {t u : Tree} {p : Phrase} :
    u ∈ t.nodesOf p ↔ u ∈ t.children ∧ u.phrase? = some p := by
  simp [Tree.nodesOf]

theorem TokenOr.of_nodesOf {P : Tree → Prop} {t : Tree} (h : ∀ u ∈ t.children, TokenOr P u)
    {p : Phrase} :
    ∀ u ∈ t.nodesOf p, P u := by
  intro u hu
  obtain ⟨hmem, hphrase⟩ := mem_nodesOf.mp hu
  exact (h u hmem).of_phrase hphrase

/-- A phrase has no parts of a sort if none of them is one. -/
theorem nodesOf_eq_nil {p q : Phrase} {ts : List Tree} (hts : ∀ t ∈ ts, t.phrase? ≠ some p) :
    (Tree.node q ts).nodesOf p = [] := by
  refine List.filter_eq_nil_iff.mpr fun t ht => ?_
  simpa using hts t ht

/-- The first phrase of a sort. -/
theorem node?_append {p q : Phrase} (ts rest : List Tree) {t : Tree}
    (hts : ∀ t ∈ ts, t.phrase? ≠ some p) (ht : t.phrase? = some p) :
    (Tree.node q (ts ++ t :: rest)).node? p = some t := by
  have hnone : ts.filter (·.phrase? == some p) = [] := nodesOf_eq_nil (q := q) hts
  simp [Tree.node?, Tree.nodesOf, Tree.children, hnone, ht]

theorem node?_eq_none {p q : Phrase} {ts : List Tree} (hts : ∀ t ∈ ts, t.phrase? ≠ some p) :
    (Tree.node q ts).node? p = none := by
  rw [Tree.node?, nodesOf_eq_nil hts, List.head?_nil]

/-- Trees and tokens between them. -/
theorem TokenOr.of_pairs {P : Token → Prop} {Q : Tree → Prop} {pairs : List (Tree × Tree)}
    (h : ∀ x ∈ pairs, (∃ y, x.1 = .leaf y ∧ P y) ∧ Q x.2) :
    ∀ t ∈ pairs.flatMap (fun x => [x.1, x.2]), TokenOr Q t := by
  intro t ht
  obtain ⟨x, hx, ht⟩ := List.mem_flatMap.mp ht
  obtain ⟨⟨y, hy, -⟩, hsecond⟩ := h x hx
  simp only [List.mem_cons, List.not_mem_nil, or_false] at ht
  rcases ht with rfl | rfl
  · exact .inl ⟨y, hy⟩
  · exact .inr hsecond

/-! ## Values -/

/-- An operand that can be read, be it that of an operator or not. -/
def IsOperand (t : Tree) : Prop := ∀ inOp, Tree.Reads .operand (operand inOp) t

/-- A product that can be read, be it a part of a sum or not. -/
def IsProduct (t : Tree) : Prop := ∀ inOp, Tree.Reads .product (product inOp) t

/-- A sum that can be read. -/
def IsSum (t : Tree) : Prop := Tree.Reads .sum sum t

/-- A row that can be read. -/
def IsExpression (t : Tree) : Prop := Tree.Reads .expression expression t

/-- A value that can be read. -/
def IsValue (t : Tree) : Prop := Tree.Reads .value rows t

/-- Parentheses that can be read, in a media query or elsewhere. -/
def IsParens (t : Tree) : Prop := ∀ inMedia inOp, Tree.Reads .parens (parens inMedia inOp) t

/-- A sign of an operator. -/
def IsSign (t : Tree) : Prop := ∃ x, t = .leaf x ∧ ∃ o, Operator.ofSymbol? x.text = some o

/-- A token of the kinds of operators is the sign of one. -/
theorem isSign_of_spelled {t : Tree} {kinds : List Kind}
    (hkinds : ∀ k ∈ kinds, k = .plus ∨ k = .minus ∨ k = .star ∨ k = .slash)
    (h : ∃ x, t = .leaf x ∧ x.Spelled ∧ (KindSet.ofList kinds).contains x.kind = true) :
    IsSign t := by
  obtain ⟨x, ht, hspelled, hkind⟩ := h
  rw [KindSet.contains_ofList, List.contains_iff_mem] at hkind
  exact ⟨x, ht, hspelled.operator (hkinds _ hkind)⟩

/-- A token that is spelled as its kind says can be read as a value. -/
theorem single_succeeds {x : Token} (h : x.Spelled) : Succeeds (single x) := by
  have hnumber (hkind : x.kind = .dimension ∨ x.kind = .number) : Succeeds (number x) := by
    obtain ⟨d, hd⟩ := h.read_number hkind
    exact ⟨.dimension d, by rw [number, hd]⟩
  unfold single
  split
  · rename_i hkind
    exact hnumber (.inl hkind)
  · rename_i hkind
    exact hnumber (.inr hkind)
  all_goals exact .ok _

/-- Operands can be joined by the sign of an operator. -/
theorem joined_succeeds {op : Token} (h : ∃ o, Operator.ofSymbol? op.text = some o)
    (left right : Node) (leftStop : Nat) : Succeeds (joined op left right leftStop) := by
  obtain ⟨o, ho⟩ := h
  exact ⟨.operation o left right (op.start > leftStop) op.start, by rw [joined, ho]⟩

/-- Signs and operands in turn, behind the first operand of a product. -/
theorem productRest_succeeds (inOp : Bool) {pairs : List (Tree × Tree)}
    (h : ∀ x ∈ pairs, IsSign x.1 ∧ IsOperand x.2) (left : Node) (leftStop : Nat) :
    Succeeds (productRest inOp left leftStop (pairs.flatMap fun x => [x.1, x.2])) := by
  induction pairs generalizing left leftStop with
  | nil => exact ⟨left, by simp [productRest]⟩
  | cons x pairs ih =>
    obtain ⟨⟨⟨op, hop, hsymbol⟩, hx⟩, hpairs⟩ := List.forall_mem_cons.mp h
    simp only [List.flatMap_cons, hop, List.cons_append, List.nil_append, productRest]
    refine (hx inOp).succeeds.bind fun right => ?_
    exact (joined_succeeds hsymbol left right leftStop).bind fun n => ih hpairs n _

/-- Signs and products in turn, behind the first product of a sum. -/
theorem sumRest_succeeds (inOp : Bool) {pairs : List (Tree × Tree)}
    (h : ∀ x ∈ pairs, IsSign x.1 ∧ IsProduct x.2) (left : Node) (leftStop : Nat) :
    Succeeds (sumRest inOp left leftStop (pairs.flatMap fun x => [x.1, x.2])) := by
  induction pairs generalizing left leftStop with
  | nil => exact ⟨left, by simp [sumRest]⟩
  | cons x pairs ih =>
    obtain ⟨⟨⟨op, hop, hsymbol⟩, hx⟩, hpairs⟩ := List.forall_mem_cons.mp h
    simp only [List.flatMap_cons, hop, List.cons_append, List.nil_append, sumRest]
    refine (hx inOp).succeeds.bind fun right => ?_
    exact (joined_succeeds hsymbol left right leftStop).bind fun n => ih hpairs n _

/-- Sums that can be read can be read in a row. -/
theorem sums_succeeds {ts : List Tree} (h : ∀ t ∈ ts, IsSum t) : Succeeds (sums ts) := by
  induction ts with
  | nil => exact ⟨[], by simp [sums]⟩
  | cons t ts ih =>
    obtain ⟨ht, hts⟩ := List.forall_mem_cons.mp h
    rw [sums]
    exact ht.succeeds.bind fun head => (ih hts).bind fun rest => .ok (head :: rest)

/-- Tokens between the rows are skipped. -/
theorem rowsOf_succeeds {ts : List Tree} (h : ∀ t ∈ ts, TokenOr IsExpression t) :
    Succeeds (rowsOf ts) := by
  induction ts with
  | nil => exact ⟨[], by simp [rowsOf]⟩
  | cons t ts ih =>
    obtain ⟨ht, hts⟩ := List.forall_mem_cons.mp h
    cases t with
    | leaf x =>
      rw [rowsOf]
      exact ih hts
    | node p parts =>
      rw [rowsOf]
      · exact (ht.of_phrase rfl).succeeds.bind fun head => (ih hts).bind fun rest =>
          .ok (head :: rest)
      · intro x hx
        cases hx

end Reading

namespace Parser

open Reading

section Values

variable {bound : Nat} {inner : Parser Tree} (hinner : inner.Finds bound IsOperand)

include hinner

/-- What is found as a product can be read, if its operands can. -/
theorem productOver_finds : (productOver inner).Finds bound IsProduct := by
  refine Finds.node (hinner.bind fun head hhead => ?_)
  refine (Finds.repeatPair (Finds.take _ _) hinner).bind fun more hmore =>
    .pure fun inOp => ⟨rfl, ?_⟩
  obtain ⟨pairs, rfl, hpairs⟩ := hmore
  rw [product]
  refine (hhead _).succeeds.bind fun left => productRest_succeeds _ (fun x hx => ?_) left _
  obtain ⟨hop, hoperand⟩ := hpairs x hx
  exact ⟨isSign_of_spelled (by decide) hop, hoperand⟩

theorem sumOver_finds : (sumOver inner).Finds bound IsSum := by
  have hproduct := productOver_finds hinner
  refine Finds.node (hproduct.bind fun head hhead => ?_)
  refine (Finds.repeatPair (Finds.take _ _) hproduct).bind fun more hmore => .pure ⟨rfl, ?_⟩
  obtain ⟨pairs, rfl, hpairs⟩ := hmore
  rw [sum]
  refine (hhead _).succeeds.bind fun left => sumRest_succeeds _ (fun x hx => ?_) left _
  obtain ⟨hop, hoperand⟩ := hpairs x hx
  exact ⟨isSign_of_spelled (by decide) hop, hoperand⟩

theorem expressionOver_finds : (expressionOver inner).Finds bound IsExpression := by
  have hsum := sumOver_finds hinner
  refine Finds.node (hsum.bind fun head hhead => (Finds.repeatSingle hsum).bind
    fun more hmore => ?_)
  refine .pure ⟨rfl, ?_⟩
  rw [Reading.expression]
  exact (sums_succeeds (List.forall_mem_cons.mpr ⟨hhead, hmore⟩)).bind fun items => .ok _

theorem valueOver_finds : (valueOver inner).Finds bound IsValue := by
  have hexpression := expressionOver_finds hinner
  refine Finds.node (hexpression.bind fun head hhead => ?_)
  refine (Finds.repeatPair (Finds.expect _ _) hexpression).bind fun more hmore => .pure ⟨rfl, ?_⟩
  obtain ⟨pairs, rfl, hpairs⟩ := hmore
  rw [rows]
  refine rowsOf_succeeds (List.forall_mem_cons.mpr ⟨.inr hhead, ?_⟩)
  exact TokenOr.of_pairs hpairs

omit hinner in
theorem featureName_finds : featureName.Finds bound fun ts =>
    ts = [] ∨ ∃ name colon, ts = [.leaf name, .leaf colon] := by
  refine Finds.here_bind fun c => ?_
  split
  · refine (Finds.expect _ _).bind fun name hname => (Finds.expect _ _).bind
      fun colon hcolon => .pure ?_
    obtain ⟨x, rfl, -⟩ := hname
    obtain ⟨y, rfl, -⟩ := hcolon
    exact .inr ⟨x, y, rfl⟩
  · exact .pure (.inl rfl)

theorem parensOver_finds : (parensOver inner).Finds bound IsParens := by
  refine Finds.node ((Finds.expect _ _).bind fun left _ => featureName_finds.bind
    fun feature hfeature => ?_)
  refine (valueOver_finds hinner).bind fun value hvalue => (Finds.expect _ _).bind
    fun right hright => ?_
  refine .pure fun inMedia inOp => ⟨rfl, ?_⟩
  rcases hfeature with rfl | ⟨name, colon, rfl⟩
  · change Succeeds (Reading.parens inMedia inOp (.node .parens [left, value, right]))
    rw [Reading.parens]
    refine hvalue.succeeds.bind fun items => ?_
    split
    · exact .ok _
    · exact .ok _
  · change Succeeds (Reading.parens inMedia inOp
      (.node .parens [left, .leaf name, .leaf colon, value, right]))
    rw [Reading.parens]
    exact hvalue.succeeds.bind fun items => .ok _

theorem operandParts_finds :
    (operandParts inner).Finds bound fun ts => IsOperand (.node .operand ts) := by
  refine Finds.here_bind fun c => ?_
  split
  · refine (Finds.expect _ _).bind fun minus hminus => Finds.here_bind fun c => ?_
    obtain ⟨x, rfl, hx⟩ := hminus
    split
    · refine hinner.bind fun t ht => .pure fun inOp => ⟨rfl, ?_⟩
      have hnode : t.token? = none := by
        have hphrase := (ht inOp).phrase_eq
        cases t with
        | leaf y => cases hphrase
        | node p parts => rfl
      simp only [Reading.operand, hx, hnode]
      exact (ht inOp).succeeds.bind fun n => .ok _
    · exact Finds.fail _ _
  · refine (Finds.expect _ _).bind fun tilde htilde => Finds.here_bind fun c => ?_
    obtain ⟨x, rfl, hx⟩ := htilde
    split
    · refine (Finds.expect _ _).bind fun string hstring => .pure fun inOp => ⟨rfl, ?_⟩
      obtain ⟨y, rfl, -⟩ := hstring
      simp only [Reading.operand, hx, Tree.token?]
      exact .ok _
    · exact Finds.fail _ _
  · refine (Finds.expect _ _).bind fun head hhead => Finds.here_bind fun c => ?_
    obtain ⟨x, rfl, hx⟩ := hhead
    split
    · refine (Finds.expect _ _).bind fun right hright => .pure fun inOp => ⟨rfl, ?_⟩
      obtain ⟨y, rfl, -⟩ := hright
      simp only [Reading.operand, hx, Tree.token?]
      exact .ok _
    · refine (valueOver_finds hinner).bind fun value hvalue => ?_
      refine (Finds.expect _ _).bind fun right hright => .pure fun inOp => ⟨rfl, ?_⟩
      rw [Reading.operand]
      exact hvalue.succeeds.bind fun args => .ok _
  · refine (parensOver_finds hinner).bind fun t ht => .pure fun inOp => ⟨rfl, ?_⟩
    have hnode : t.token? = none := by
      have hphrase := (ht false inOp).phrase_eq
      cases t with
      | leaf y => cases hphrase
      | node p parts => rfl
    simp only [Reading.operand, hnode]
    exact (ht false inOp).succeeds
  · refine (Finds.take _ _).bind fun t ht => .pure fun inOp => ⟨rfl, ?_⟩
    obtain ⟨x, rfl, hspelled, -⟩ := ht
    simp only [Reading.operand, Tree.token?]
    exact single_succeeds hspelled

end Values

variable {bound : Nat}

/-- What is found as an operand can be read, by induction on the bound. -/
theorem operandWithin_finds (n : Nat) : (operandWithin n).Finds bound IsOperand := by
  induction n with
  | zero => exact Finds.fail _ _
  | succ n ih => exact Finds.node (operandParts_finds ih)

theorem expression_finds : expression.Finds bound IsExpression :=
  fun c hc => expressionOver_finds (operandWithin_finds c.rest.length) c hc

theorem value_finds : value.Finds bound IsValue :=
  fun c hc => valueOver_finds (operandWithin_finds c.rest.length) c hc

theorem parens_finds : parens.Finds bound IsParens :=
  fun c hc => parensOver_finds (operandWithin_finds c.rest.length) c hc

end Parser

/-! ## Media queries -/

namespace Reading

/-- A media query that can be read. -/
def IsMediaQuery (t : Tree) : Prop := Tree.Reads .mediaQuery (fun q => mediaParts q.children) t

/-- A list of media queries that can be read. -/
def IsMediaList (t : Tree) : Prop := Tree.Reads .mediaList mediaList t

theorem mediaParts_succeeds {ts : List Tree} (h : ∀ t ∈ ts, TokenOr IsParens t) :
    Succeeds (mediaParts ts) := by
  induction ts with
  | nil => exact .ok []
  | cons t ts ih =>
    obtain ⟨ht, hts⟩ := List.forall_mem_cons.mp h
    cases t with
    | leaf x => exact (ih hts).bind fun rest => .ok _
    | node p parts =>
      have hparens := (ht.of_phrase rfl) true false
      exact hparens.succeeds.bind fun head => (ih hts).bind fun rest => .ok _

end Reading

namespace Parser

open Reading

variable {bound : Nat}

theorem mediaQuery_finds : mediaQuery.Finds bound IsMediaQuery := by
  have hitem : Finds bound (do
      if (← here).isAt .leftParen then return [← parens]
      else return [← take .mediaQuery (.ofList [.ident, .and, .or])])
        fun ts => ∀ t ∈ ts, TokenOr IsParens t := by
    refine Finds.here_bind fun c => ?_
    split
    · refine parens_finds.bind fun t ht => .pure ?_
      exact List.forall_mem_singleton.mpr (.inr ht)
    · refine (Finds.take _ _).bind fun t ⟨x, ht, _⟩ => .pure ?_
      exact List.forall_mem_singleton.mpr (.inl ⟨x, ht⟩)
  refine Finds.node ((Finds.repeatWhile hitem).bind fun parts ⟨rounds, hparts, hrounds⟩ => ?_)
  split
  · exact Finds.fail _ _
  · refine .pure ⟨rfl, mediaParts_succeeds fun t ht => ?_⟩
    rw [Tree.children, hparts] at ht
    obtain ⟨round, hround, ht⟩ := List.mem_flatten.mp ht
    exact hrounds round hround t ht

theorem mediaList_finds : mediaList.Finds bound IsMediaList := by
  refine Finds.node (mediaQuery_finds.bind fun head hhead => ?_)
  refine (Finds.repeatPair (Finds.expect _ _) mediaQuery_finds).bind fun more hmore =>
    .pure ⟨rfl, ?_⟩
  obtain ⟨pairs, rfl, hpairs⟩ := hmore
  have hqueries : ∀ t ∈ (Tree.node .mediaList (head :: pairs.flatMap fun x => [x.1, x.2])).children,
      TokenOr IsMediaQuery t :=
    List.forall_mem_cons.mpr ⟨.inr hhead, TokenOr.of_pairs hpairs⟩
  refine (Succeeds.mapM fun q hq => ?_).bind fun queries => .ok _
  exact (TokenOr.of_nodesOf hqueries q hq).succeeds

end Parser

/-! ## Arguments -/

namespace Reading

/-- An argument that can be read. -/
def IsArgument (t : Tree) : Prop := Tree.Reads .argument argumentValue t

/-- Arguments that can be read, as those of a call and as parameters. -/
structure IsArguments (t : Tree) : Prop where
  phrase_eq : t.phrase? = some .arguments
  call : Succeeds (callArguments t)
  definition : Succeeds (parameters t)

/-- An argument that can be read is a parameter as well. -/
theorem parameter_succeeds {t : Tree} (h : IsArgument t) : Succeeds (parameter t) := by
  refine h.succeeds.bind fun content => ?_
  split
  all_goals exact .ok _

theorem isArguments_of {ts : List Tree} (h : ∀ t ∈ ts, TokenOr IsArgument t) :
    IsArguments (.node .arguments ts) where
  phrase_eq := rfl
  call := Succeeds.mapM fun a ha =>
    (TokenOr.of_nodesOf (t := .node .arguments ts) h a ha).succeeds.bind fun _ => .ok _
  definition := Succeeds.mapM fun a ha =>
    parameter_succeeds (TokenOr.of_nodesOf (t := .node .arguments ts) h a ha)

end Reading

namespace Parser

open Reading

variable {bound : Nat}

theorem argumentName_finds : argumentName.Finds bound fun ts => ∀ t ∈ ts, ∃ x, t = .leaf x := by
  refine Finds.here_bind fun c => ?_
  split
  · refine (Finds.expect _ _).bind fun name ⟨x, hx, _⟩ => ?_
    refine (Finds.expect _ _).bind fun colon ⟨y, hy, _⟩ => .pure ?_
    simp [hx, hy]
  · exact .pure nofun

theorem argument_finds : argument.Finds bound IsArgument := by
  refine Finds.node (argumentName_finds.bind fun name hname => ?_)
  refine expression_finds.bind fun content hcontent => .pure ⟨rfl, ?_⟩
  rw [argumentValue, node?_append name [] (fun t ht => ?_) hcontent.phrase_eq]
  · exact hcontent.succeeds
  · obtain ⟨x, rfl⟩ := hname t ht
    nofun

theorem arguments_finds : arguments.Finds bound IsArguments := by
  refine Finds.node ((Finds.expect _ _).bind fun left ⟨x, hleft, _⟩ => Finds.here_bind fun c => ?_)
  split
  · refine (Finds.expect _ _).bind fun right ⟨y, hright, _⟩ => .pure (isArguments_of ?_)
    simp [hleft, hright, TokenOr]
  · refine argument_finds.bind fun head hhead => ?_
    refine (Finds.repeatPair (Finds.take _ _) argument_finds).bind
      fun more ⟨pairs, hmore, hpairs⟩ => ?_
    refine (Finds.expect _ _).bind fun right ⟨y, hright, _⟩ => .pure (isArguments_of ?_)
    have hrest : ∀ t ∈ more, TokenOr IsArgument t := by
      rw [hmore]
      exact TokenOr.of_pairs hpairs
    simp only [List.cons_append, List.mem_cons, List.mem_append, List.not_mem_nil, or_false]
    rintro t (rfl | rfl | ht | rfl)
    · exact .inl ⟨x, hleft⟩
    · exact .inr hhead
    · exact hrest t ht
    · exact .inl ⟨y, hright⟩

end Parser

/-! ## Selectors -/

namespace Reading

/-- A selector whose elements can be read, whatever stands before it. -/
def IsSelector (t : Tree) : Prop :=
  ∀ source combinator, Tree.Reads .selector (elements source combinator) t

/-- A clause that extends at least one selector. -/
structure IsClause (t : Tree) : Prop where
  phrase_eq : t.phrase? = some .extendClause
  targets : ∀ source, ∃ targets, extendTargets source t = .ok targets ∧ targets ≠ []

/-- A selector, perhaps with a clause behind it. -/
def IsItem (ts : List Tree) : Prop :=
  ∃ s, IsSelector s ∧ (ts = [s] ∨ ∃ clause, ts = [s, clause] ∧ IsClause clause)

/-- What is read off the parts of a selector list: one selector for each, and one that extends
something if there is a clause. -/
structure ReadsSelectors (source : List Char) (ts : List Tree) (ss : List Selector) : Prop where
  result : selectorsOf source ts = .ok ss
  length_eq : ss.length = (ts.filter (·.phrase? == some .selector)).length
  extends_of_clause : ts.any (·.phrase? == some .extendClause) = true →
    ss.any (fun s => !s.extending.isEmpty) = true

/-- A selector list that can be read. -/
structure IsSelectorList (t : Tree) : Prop where
  phrase_eq : t.phrase? = some .selectorList
  read : ∀ source, ∃ ss, ReadsSelectors source t.children ss
  nonempty : t.nodesOf .selector ≠ []
  single_of_callable : Parser.isCallable t = true → (t.nodesOf .selector).length = 1

theorem extendTargets_of {ts : List Tree} (h : ∀ t ∈ ts, TokenOr IsSelector t)
    (hsome : ∃ t ∈ ts, t.phrase? = some .selector) : IsClause (.node .extendClause ts) := by
  refine ⟨rfl, fun source => ?_⟩
  have hread : Succeeds (extendTargets source (.node .extendClause ts)) := by
    refine Succeeds.mapM fun s hs => ?_
    have hs := TokenOr.of_nodesOf (t := .node .extendClause ts) h s hs source .none
    exact (hs.succeeds.bind fun _ => .ok _).bind fun _ => .ok _
  obtain ⟨targets, htargets⟩ := hread
  refine ⟨targets, htargets, ?_⟩
  obtain ⟨t, ht, hphrase⟩ := hsome
  have hmem : t ∈ (Tree.node .extendClause ts).nodesOf .selector := mem_nodesOf.mpr ⟨ht, hphrase⟩
  have hlength := (values_of_mapM htargets).1
  have hpos := List.length_pos_of_mem hmem
  rintro rfl
  rw [List.length_nil] at hlength
  omega

/-- A selector with its clause, in front of what starts with a token or is empty. -/
theorem ReadsSelectors.item {source : List Char} {ts rest : List Tree} {ss : List Selector}
    (hts : IsItem ts) (hrest : ReadsSelectors source rest ss)
    (hstart : rest = [] ∨ ∃ x others, rest = .leaf x :: others) :
    ∃ s, ReadsSelectors source (ts ++ rest) (s :: ss) := by
  obtain ⟨t, ht, hitem⟩ := hts
  obtain ⟨own, hown⟩ := (ht source .none).succeeds
  have hphrase := (ht source .none).phrase_eq
  obtain ⟨p, parts, rfl⟩ : ∃ p parts, t = .node p parts := by
    cases t with
    | leaf x => cases hphrase
    | node p parts => exact ⟨p, parts, rfl⟩
  cases hphrase
  rcases hitem with rfl | ⟨clause, rfl, hclause⟩
  · refine ⟨.ofElements own, ?_, ?_, ?_⟩
    · -- what follows is no clause
      have hread : selectorsOf source (.node .selector parts :: rest) = (do
          let head ← selector source (.node .selector parts)
          return head :: (← selectorsOf source rest)) := by
        rcases hstart with rfl | ⟨x, others, rfl⟩
        · rfl
        · rfl
      rw [List.singleton_append, hread, hrest.result, selector, hown]
      rfl
    · simp [hrest.length_eq]
    · intro hany
      have hlater : rest.any (·.phrase? == some .extendClause) = true := by
        simpa using hany
      simp only [List.any_cons, hrest.extends_of_clause hlater, Bool.or_true]
  · have hclausePhrase := hclause.phrase_eq
    obtain ⟨targets, htargets, hne⟩ := hclause.targets source
    obtain ⟨q, inner, rfl⟩ : ∃ q inner, clause = .node q inner := by
      cases clause with
      | leaf x => cases hclausePhrase
      | node q inner => exact ⟨q, inner, rfl⟩
    cases hclausePhrase
    refine ⟨.mk own targets, ?_, ?_, ?_⟩
    · rw [List.cons_append, List.singleton_append, selectorsOf, hown, htargets, hrest.result]
      · rfl
      · nofun
    · simp [hrest.length_eq]
    · intro _
      simp [Selector.extending, hne]

/-- A token between selectors is skipped. -/
theorem ReadsSelectors.token {source : List Char} {rest : List Tree} {ss : List Selector}
    (x : Token) (hrest : ReadsSelectors source rest ss) :
    ReadsSelectors source (.leaf x :: rest) ss where
  result := by rw [selectorsOf, hrest.result]
  length_eq := by simpa using hrest.length_eq
  extends_of_clause hany := hrest.extends_of_clause (by simpa using hany)

/-- What is repeated is nothing, or starts with the token of the first round. -/
theorem flatten_start {rounds : List (List Tree)}
    (h : ∀ ts ∈ rounds, ∃ x item, ts = .leaf x :: item ∧ IsItem item) :
    rounds.flatten = [] ∨ ∃ x others, rounds.flatten = .leaf x :: others := by
  cases rounds with
  | nil => exact .inl rfl
  | cons round rounds =>
    obtain ⟨x, item, rfl, -⟩ := h round List.mem_cons_self
    exact .inr ⟨x, item ++ rounds.flatten, rfl⟩

/-- Selectors behind commas, each in a round of its own. -/
theorem ReadsSelectors.rounds (source : List Char) {rounds : List (List Tree)}
    (h : ∀ ts ∈ rounds, ∃ x item, ts = .leaf x :: item ∧ IsItem item) :
    ∃ ss, ReadsSelectors source rounds.flatten ss ∧ ss.length = rounds.length := by
  induction rounds with
  | nil => exact ⟨[], ⟨by simp [selectorsOf], rfl, by simp⟩, rfl⟩
  | cons round rounds ih =>
    obtain ⟨⟨x, item, rfl, hitem⟩, hothers⟩ := List.forall_mem_cons.mp h
    obtain ⟨ss, hss, hlength⟩ := ih hothers
    obtain ⟨s, hs⟩ := ReadsSelectors.item hitem hss (flatten_start hothers)
    exact ⟨s :: ss, hs.token x, by simp [hlength]⟩

/-- Items with commas between them are a selector list that can be read. -/
theorem isSelectorList_of {item : List Tree} {rounds : List (List Tree)} (hitem : IsItem item)
    (h : ∀ ts ∈ rounds, ∃ x item, ts = .leaf x :: item ∧ x.kind = .comma ∧ IsItem item) :
    IsSelectorList (.node .selectorList (item ++ rounds.flatten)) := by
  have hrounds : ∀ ts ∈ rounds, ∃ x item, ts = .leaf x :: item ∧ IsItem item := by
    intro ts hts
    obtain ⟨x, item, hround, -, hitem⟩ := h ts hts
    exact ⟨x, item, hround, hitem⟩
  have hread (source : List Char) :
      ∃ ss, ReadsSelectors source (item ++ rounds.flatten) ss ∧ ss.length = rounds.length + 1 := by
    obtain ⟨ss, hss, hlength⟩ := ReadsSelectors.rounds source hrounds
    obtain ⟨s, hs⟩ := ReadsSelectors.item hitem hss (flatten_start hrounds)
    exact ⟨s :: ss, hs, by simp [hlength]⟩
  obtain ⟨ss, hss, hlength⟩ := hread []
  have hcount : ((Tree.node .selectorList (item ++ rounds.flatten)).nodesOf .selector).length =
      rounds.length + 1 := hss.length_eq.symm.trans hlength
  refine ⟨rfl, fun source => ?_, ?_, fun hcallable => ?_⟩
  · obtain ⟨ss, hss, -⟩ := hread source
    exact ⟨ss, hss⟩
  · intro hnil
    rw [hnil] at hcount
    simp at hcount
  · -- a comma is no part of a name
    cases rounds with
    | nil => exact hcount
    | cons round rounds =>
      obtain ⟨x, others, rfl, hcomma, -⟩ := h round List.mem_cons_self
      simp [Parser.isCallable, hcomma] at hcallable

end Reading

namespace Parser

open Reading

variable {bound : Nat}

theorem selectorWithin_finds (inExtend : Bool) (n : Nat) :
    (selectorWithin inExtend n).Finds bound IsSelector := by
  induction n with
  | zero =>
    refine Finds.node (Finds.seq simpleSelector_takes fun head => ?_)
    exact .pure fun source combinator => ⟨rfl, by rw [elements]; exact .ok _⟩
  | succ n ih =>
    refine Finds.node (Finds.seq simpleSelector_takes fun head => Finds.here_bind fun c => ?_)
    split
    · refine Finds.seq combinator_takes fun sign => ih.bind fun rest hrest => ?_
      refine .pure fun source combinator => ⟨rfl, ?_⟩
      rw [elements]
      exact (hrest source _).succeeds.bind fun _ => .ok _
    · split
      · refine ih.bind fun rest hrest => .pure fun source combinator => ⟨rfl, ?_⟩
        rw [elements]
        exact (hrest source _).succeeds.bind fun _ => .ok _
      · exact .pure fun source combinator => ⟨rfl, by rw [elements]; exact .ok _⟩

theorem selector_finds (inExtend : Bool) : (selector inExtend).Finds bound IsSelector :=
  fun c hc => selectorWithin_finds inExtend c.rest.length c hc

theorem extendClause_finds : extendClause.Finds bound IsClause := by
  refine Finds.node ((Finds.expect _ _).bind fun head ⟨x, hhead, _⟩ => ?_)
  refine (selector_finds true).bind fun target htarget => ?_
  refine (Finds.repeatPair (Finds.expect _ _) (selector_finds true)).bind
    fun more ⟨pairs, hmore, hpairs⟩ => ?_
  refine Finds.here_bind fun c => ?_
  refine Finds.ite_bind (Finds.accept _ .ident) (.pure nofun) fun all hall => ?_
  refine (Finds.expect _ _).bind fun right ⟨y, hright, _⟩ => .pure (extendTargets_of ?_ ?_)
  · have hrest : ∀ t ∈ more, TokenOr IsSelector t := by
      rw [hmore]
      exact TokenOr.of_pairs hpairs
    simp only [List.cons_append, List.mem_cons, List.mem_append, List.not_mem_nil, or_false]
    rintro t (rfl | rfl | (ht | ht) | rfl)
    · exact .inl ⟨x, hhead⟩
    · exact .inr htarget
    · exact hrest t ht
    · obtain ⟨z, hz, -⟩ := hall t ht
      exact .inl ⟨z, hz⟩
    · exact .inl ⟨y, hright⟩
  · exact ⟨target, by simp, (htarget [] .none).phrase_eq⟩

theorem selectorWithExtend_finds : selectorWithExtend.Finds bound IsItem := by
  refine (selector_finds false).bind fun head hhead => Finds.here_bind fun c => ?_
  split
  · exact extendClause_finds.bind fun clause hclause =>
      .pure ⟨head, hhead, .inr ⟨clause, rfl, hclause⟩⟩
  · exact .pure ⟨head, hhead, .inl rfl⟩

/-- What is found as a selector list can be read. -/
theorem selectorList_finds : selectorList.Finds bound IsSelectorList := by
  have hround : Finds bound (do return (← expect .selectorList .comma) :: (← selectorWithExtend))
      fun ts => ∃ x item, ts = .leaf x :: item ∧ x.kind = .comma ∧ IsItem item := by
    refine (Finds.expect _ _).bind fun comma ⟨x, hcomma, hkind⟩ => ?_
    exact selectorWithExtend_finds.bind fun item hitem =>
      .pure ⟨x, item, by rw [hcomma], hkind, hitem⟩
  refine Finds.node (selectorWithExtend_finds.bind fun item hitem => ?_)
  refine (Finds.repeatWhile hround).bind fun more ⟨rounds, hmore, hrounds⟩ => .pure ?_
  rw [hmore]
  exact isSelectorList_of hitem hrounds

end Parser

end LessCss
