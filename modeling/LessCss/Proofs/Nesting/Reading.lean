import LessCss.Proofs.Nesting.Shape
import LessCss.Proofs.Parsing.Occurring

/-!
# Stylesheets that were read have the right shape

Reading a tree gives values where values belong and rules where rules belong.  A rule set has
selectors, because the parser puts at least one in front of every block.
-/

namespace LessCss

open Node

namespace Reading

theorem missing_ensures {α : Type} {P : α → Prop} (t : Tree) (part : String) :
    Ensures (missing t part) P := .error

/-! ## Values -/

/-- A property of nodes that what is read has: single nodes if they are read from tokens of some
sort, and all others with whatever parts. -/
structure ReadsNodes (X : Token → Prop) (K : Node → Prop) : Prop where
  single : ∀ {t}, X t → Ensures (Reading.single t) K
  escaped : ∀ {t}, X t → K (quoted t true)
  dimension : ∀ d, K (.dimension d)
  keyword : ∀ text, K (.keyword text)
  expression : ∀ items parens operand tight, K (.expression items parens operand tight)
  list : ∀ items, K (.list items)
  paren : ∀ inner, K (.paren inner)
  negative : ∀ inner, K (.negative inner)
  operation : ∀ op left right spaced offset, K (.operation op left right spaced offset)
  call : ∀ name args offset, K (.call name args offset)

theorem ReadsNodes.any : ReadsNodes (fun _ => True) fun _ => True where
  single _ := fun _ _ => trivial
  escaped _ := trivial
  dimension _ := trivial
  keyword _ := trivial
  expression _ _ _ _ := trivial
  list _ := trivial
  paren _ := trivial
  negative _ := trivial
  operation _ _ _ _ _ := trivial
  call _ _ _ := trivial

section Values

variable {X : Token → Prop} {K : Node → Prop}

/-- A node that is read from a single token is a value without parts. -/
theorem single_isSingle (t : Token) : Ensures (single t) fun n => n.isValueSort ∧ n.parts = [] := by
  have hnumber : Ensures (number t) fun n => n.isValueSort ∧ n.parts = [] := by
    unfold number
    split
    · exact .ok ⟨rfl, rfl⟩
    · exact .error
  unfold single
  split
  · exact hnumber
  · exact hnumber
  all_goals exact .ok ⟨rfl, rfl⟩

/-- A node without parts is a value throughout which a property holds, if it has the property. -/
theorem isValueOf_single {n : Node} (h : n.isValueSort ∧ n.parts = []) (hn : K n) :
    n.IsValueOf K := by
  refine isValueOf_iff.mpr ⟨h.1, hn, ?_⟩
  rw [h.2]
  exact List.forall_mem_nil _

namespace ReadsNodes

/-- A single token is read as a value of such nodes. -/
theorem readSingle (hK : ReadsNodes X K) {t : Token} (ht : X t) :
    Ensures (Reading.single t) (IsValueOf K) :=
  fun n hn => isValueOf_single (single_isSingle t n hn) (hK.single ht n hn)

theorem isValueOf_keyword (hK : ReadsNodes X K) (text : String) : (Node.keyword text).IsValueOf K :=
  isValueOf_single ⟨rfl, rfl⟩ (hK.keyword text)

theorem isValueOf_row (hK : ReadsNodes X K) {values : List Node} (h : ∀ v ∈ values, v.IsValueOf K) :
    (row values).IsValueOf K := isValueOf_iff.mpr ⟨rfl, hK.expression .., h⟩

theorem isValueOf_list (hK : ReadsNodes X K) {values : List Node}
    (h : ∀ v ∈ values, v.IsValueOf K) :
    (Node.list values).IsValueOf K := isValueOf_iff.mpr ⟨rfl, hK.list _, h⟩

theorem isValueOf_paren (hK : ReadsNodes X K) {n : Node} (h : n.IsValueOf K) :
    (Node.paren n).IsValueOf K :=
  isValueOf_iff.mpr ⟨rfl, hK.paren _, List.forall_mem_singleton.mpr h⟩

/-- A sign in front of a value of such nodes gives one. -/
theorem isValueOf_negated (hK : ReadsNodes X K) {n : Node} (h : n.IsValueOf K) :
    (negated n).IsValueOf K := by
  unfold negated
  split
  · exact isValueOf_single ⟨rfl, rfl⟩ (hK.dimension _)
  · exact isValueOf_iff.mpr ⟨rfl, hK.negative _, List.forall_mem_singleton.mpr h⟩

/-- An operator between two values of such nodes gives one. -/
theorem isValueOf_joined (hK : ReadsNodes X K) {op : Token} {left right : Node} {leftStop : Nat}
    (hl : left.IsValueOf K) (hr : right.IsValueOf K) :
    Ensures (joined op left right leftStop) (IsValueOf K) := by
  unfold joined
  split
  · refine .ok (isValueOf_iff.mpr ⟨rfl, hK.operation .., ?_⟩)
    exact List.forall_mem_cons.mpr ⟨hl, List.forall_mem_singleton.mpr hr⟩
  · exact .error

theorem isValueOf_parenItems (hK : ReadsNodes X K) {items : List Node}
    (h : ∀ v ∈ items, v.IsValueOf K) :
    ∀ v ∈ parenItems items, v.IsValueOf K := by
  unfold parenItems
  split
  · exact (isValueOf_iff.mp (h _ List.mem_cons_self)).2.2
  · exact List.forall_mem_nil _
  · exact List.forall_mem_singleton.mpr (hK.isValueOf_list h)

end ReadsNodes

mutual
/-- An operand is read as a value of such nodes. -/
theorem operand_isValueOf (hK : ReadsNodes X K) (inOp : Bool) (t : Tree) (ht : t.MadeOf X) :
    Ensures (operand inOp t) (IsValueOf K) := by
  unfold operand
  split
  · next x =>
    have hx := ht.child List.mem_cons_self
    split
    · next token htoken =>
      cases x with
      | leaf y =>
        cases htoken
        exact hK.readSingle hx.token
      | node => cases htoken
    · exact parens_isValueOf hK false inOp x hx
  · next token x =>
    have hx : x.MadeOf X := ht.child (.tail _ (.head _))
    split
    · exact .bind (operand_isValueOf hK inOp x hx) fun n hn => .ok (hK.isValueOf_negated hn)
    · next string _ hstring =>
      cases x with
      | leaf y =>
        cases hstring
        exact .ok (isValueOf_single ⟨rfl, rfl⟩ (hK.escaped hx.token))
      | node => cases hstring
    · exact .ok (isValueOf_single ⟨rfl, rfl⟩ (hK.call ..))
    · exact missing_ensures _ _
  · next token x _ =>
    have hx : x.MadeOf X := ht.child (.tail _ (.head _))
    exact .bind (rows_areValuesOf hK x hx) fun items hitems =>
      .ok (isValueOf_iff.mpr ⟨rfl, hK.call .., hitems⟩)
  · exact missing_ensures _ _
termination_by sizeOf t
theorem product_isValueOf (hK : ReadsNodes X K) (inOp : Bool) (t : Tree) (ht : t.MadeOf X) :
    Ensures (product inOp t) (IsValueOf K) := by
  unfold product
  split
  · next head rest =>
    refine .bind (operand_isValueOf hK _ head (ht.child List.mem_cons_self)) fun left hleft => ?_
    exact productRest_isValueOf hK _ left _ rest
      (fun u hu => ht.child (List.mem_cons_of_mem _ hu)) hleft
  · exact missing_ensures _ _
termination_by sizeOf t
theorem productRest_isValueOf (hK : ReadsNodes X K) (inOp : Bool) (left : Node) (leftStop : Nat)
    (ts : List Tree) (hts : ∀ t ∈ ts, t.MadeOf X) (hleft : left.IsValueOf K) :
    Ensures (productRest inOp left leftStop ts) (IsValueOf K) := by
  unfold productRest
  split
  · exact .ok hleft
  · next op x rest =>
    refine .bind (operand_isValueOf hK inOp x (hts x (.tail _ (.head _)))) fun right hright => ?_
    refine .bind (hK.isValueOf_joined hleft hright) fun n hn => ?_
    exact productRest_isValueOf hK inOp n _ rest (fun t ht => hts t (.tail _ (.tail _ ht))) hn
  · exact missing_ensures _ _
termination_by sizeOf ts
theorem sum_isValueOf (hK : ReadsNodes X K) (t : Tree) (ht : t.MadeOf X) :
    Ensures (sum t) (IsValueOf K) := by
  unfold sum
  split
  · next head rest =>
    refine .bind (product_isValueOf hK _ head (ht.child List.mem_cons_self)) fun left hleft => ?_
    exact sumRest_isValueOf hK _ left _ rest
      (fun u hu => ht.child (List.mem_cons_of_mem _ hu)) hleft
  · exact missing_ensures _ _
termination_by sizeOf t
theorem sumRest_isValueOf (hK : ReadsNodes X K) (inOp : Bool) (left : Node) (leftStop : Nat)
    (ts : List Tree) (hts : ∀ t ∈ ts, t.MadeOf X) (hleft : left.IsValueOf K) :
    Ensures (sumRest inOp left leftStop ts) (IsValueOf K) := by
  unfold sumRest
  split
  · exact .ok hleft
  · next op x rest =>
    refine .bind (product_isValueOf hK inOp x (hts x (.tail _ (.head _)))) fun right hright => ?_
    refine .bind (hK.isValueOf_joined hleft hright) fun n hn => ?_
    exact sumRest_isValueOf hK inOp n _ rest (fun t ht => hts t (.tail _ (.tail _ ht))) hn
  · exact missing_ensures _ _
termination_by sizeOf ts
theorem sums_areValuesOf (hK : ReadsNodes X K) (ts : List Tree) (hts : ∀ t ∈ ts, t.MadeOf X) :
    Ensures (sums ts) fun ns => ∀ n ∈ ns, n.IsValueOf K := by
  unfold sums
  split
  · exact .ok (List.forall_mem_nil _)
  · next t ts =>
    obtain ⟨ht, hts⟩ := List.forall_mem_cons.mp hts
    refine .bind (sum_isValueOf hK t ht) fun head hhead => ?_
    exact .bind (sums_areValuesOf hK ts hts) fun rest hrest =>
      .ok (List.forall_mem_cons.mpr ⟨hhead, hrest⟩)
termination_by sizeOf ts
theorem expression_isValueOf (hK : ReadsNodes X K) (t : Tree) (ht : t.MadeOf X) :
    Ensures (expression t) (IsValueOf K) := by
  unfold expression
  split
  · next ts =>
    refine .bind (sums_areValuesOf hK ts fun u hu => ht.child hu) fun items hitems =>
      .ok (hK.isValueOf_row hitems)
  · exact missing_ensures _ _
termination_by sizeOf t
theorem rowsOf_areValuesOf (hK : ReadsNodes X K) (ts : List Tree) (hts : ∀ t ∈ ts, t.MadeOf X) :
    Ensures (rowsOf ts) fun ns => ∀ n ∈ ns, n.IsValueOf K := by
  unfold rowsOf
  split
  · exact .ok (List.forall_mem_nil _)
  · next ts => exact rowsOf_areValuesOf hK ts (List.forall_mem_cons.mp hts).2
  · next t ts _ =>
    obtain ⟨ht, hts⟩ := List.forall_mem_cons.mp hts
    refine .bind (expression_isValueOf hK t ht) fun head hhead => ?_
    exact .bind (rowsOf_areValuesOf hK ts hts) fun rest hrest =>
      .ok (List.forall_mem_cons.mpr ⟨hhead, hrest⟩)
termination_by sizeOf ts
theorem rows_areValuesOf (hK : ReadsNodes X K) (t : Tree) (ht : t.MadeOf X) :
    Ensures (rows t) fun ns => ∀ n ∈ ns, n.IsValueOf K := by
  unfold rows
  split
  · next ts => exact rowsOf_areValuesOf hK ts fun u hu => ht.child hu
  · exact missing_ensures _ _
termination_by sizeOf t
theorem parens_isValueOf (hK : ReadsNodes X K) (inMedia inOp : Bool) (t : Tree) (ht : t.MadeOf X) :
    Ensures (parens inMedia inOp t) (IsValueOf K) := by
  unfold parens
  split
  · next name _ content _ =>
    have hcontent : content.MadeOf X := ht.child (.tail _ (.tail _ (.tail _ (.head _))))
    refine .bind (rows_areValuesOf hK content hcontent) fun items hitems =>
      .ok (hK.isValueOf_paren ?_)
    refine hK.isValueOf_row (List.forall_mem_cons.mpr ⟨hK.isValueOf_keyword _, ?_⟩)
    exact List.forall_mem_singleton.mpr (hK.isValueOf_list hitems)
  · next content _ =>
    have hcontent : content.MadeOf X := ht.child (.tail _ (.head _))
    refine .bind (rows_areValuesOf hK content hcontent) fun items hitems => ?_
    split
    · exact .ok (hK.isValueOf_paren (hK.isValueOf_list hitems))
    · exact .ok (isValueOf_iff.mpr ⟨rfl, hK.expression .., hK.isValueOf_parenItems hitems⟩)
  · exact missing_ensures _ _
termination_by sizeOf t
end

theorem value_isValueOf (hK : ReadsNodes X K) {t : Tree} (ht : t.MadeOf X) :
    Ensures (value t) (IsValueOf K) :=
  .bind (rows_areValuesOf hK t ht) fun _ hitems => .ok (hK.isValueOf_list hitems)

theorem mediaParts_areValuesOf (hK : ReadsNodes X K) {ts : List Tree} (hts : ∀ t ∈ ts, t.MadeOf X) :
    Ensures (mediaParts ts) fun ns => ∀ n ∈ ns, n.IsValueOf K := by
  induction ts with
  | nil => exact .ok (List.forall_mem_nil _)
  | cons t ts ih =>
    obtain ⟨ht, hrest⟩ := List.forall_mem_cons.mp hts
    have ih := ih hrest
    cases t with
    | leaf t =>
      exact .bind ih fun rest hrest =>
        .ok (List.forall_mem_cons.mpr ⟨hK.isValueOf_keyword _, hrest⟩)
    | node p children =>
      refine .bind (parens_isValueOf hK true false _ ht) fun head hhead => ?_
      exact .bind ih fun rest hrest => .ok (List.forall_mem_cons.mpr ⟨hhead, hrest⟩)

theorem mediaList_isValueOf (hK : ReadsNodes X K) {t : Tree} (ht : t.MadeOf X) :
    Ensures (mediaList t) (IsValueOf K) := by
  have hqueries : ∀ q ∈ t.nodesOf .mediaQuery, Ensures (mediaParts q.children) fun ns => ∀ n ∈ ns,
      n.IsValueOf K :=
    fun q hq => mediaParts_areValuesOf hK fun u hu => (ht.child (List.mem_filter.mp hq).1).child hu
  refine .bind (.mapM hqueries) fun queries hqueries => .ok (hK.isValueOf_list fun n hn => ?_)
  obtain ⟨parts, hparts, rfl⟩ := List.mem_map.mp hn
  exact hK.isValueOf_row (hqueries parts hparts)

/-- The path of an import is read as a single token is. -/
theorem importPath?_isValueOf (hK : ReadsNodes X K) {t : Token} {n : Node} (ht : X t)
    (h : importPath? t = some n) :
    n.IsValueOf K := by
  refine hK.readSingle ht n ?_
  unfold importPath? at h
  unfold single
  split at h
  all_goals cases h
  all_goals simp only [*]

/-- What is read as a value is one. -/
theorem value_isValue (t : Tree) : Ensures (value t) IsValue := fun n hn =>
  (value_isValueOf .any .any n hn).1

theorem valueIn_isValue (t : Tree) : Ensures (valueIn t) IsValue := by
  unfold valueIn
  split
  · exact value_isValue _
  · exact missing_ensures _ _

theorem expression_isValue (t : Tree) : Ensures (expression t) IsValue := fun n hn =>
  (expression_isValueOf .any t .any n hn).1

theorem mediaList_isValue (t : Tree) : Ensures (mediaList t) IsValue := fun n hn =>
  (mediaList_isValueOf .any .any n hn).1

/-- The path of an import is a value. -/
theorem importPath?_isValue {t : Token} {n : Node} (h : importPath? t = some n) : n.IsValue :=
  (importPath?_isValueOf .any trivial h).1

end Values

/-! ## Statements without block -/

theorem assignment_isRule (t : Tree) : Ensures (assignment t) IsRule := by
  unfold assignment
  split
  · exact missing_ensures _ _
  · refine .bind (valueIn_isValue t) fun content hcontent => .ok ?_
    split
    · exact ⟨hcontent, trivial, trivial⟩
    · exact hcontent

theorem declaration_isRule (source : List Char) (t : Tree) :
    Ensures (declaration source t) IsRule := by
  unfold declaration
  split
  · exact missing_ensures _ _
  · exact .bind (valueIn_isValue t) fun content hcontent => .ok hcontent

theorem importRule_isRule (t : Tree) : Ensures (importRule t) IsRule := by
  unfold importRule
  have hfeatures : Ensures ((t.node? .mediaList).mapM mediaList) IsHeader := by
    cases t.node? .mediaList with
    | none => exact .ok nofun
    | some queries =>
      refine .bind (mediaList_isValue queries) fun features hf => .ok ?_
      intro n hn
      cases hn
      exact hf
  refine .bind hfeatures fun features hf => ?_
  split
  · next path hpath =>
    obtain ⟨token, -, hpath⟩ := List.exists_of_findSome?_eq_some hpath
    exact .ok ⟨importPath?_isValue hpath, hf⟩
  · exact missing_ensures _ _

theorem header_isHeader (source : List Char) (t : Tree) : Ensures (header source t) IsHeader := by
  unfold header
  split
  · refine .bind (value_isValue _) fun v hv => .ok ?_
    intro n hn
    cases hn
    exact hv
  · refine .ok ?_
    unfold rawHeader
    dsimp only
    split
    · intro n hn
      cases hn
      trivial
    · nofun

theorem mediaFeatures_isValue (t : Tree) : Ensures (mediaFeatures t) IsValue := by
  unfold mediaFeatures
  split
  · exact mediaList_isValue _
  · exact missing_ensures _ _

theorem withoutBlock_isRule (t : Tree) {selectors : List Selector} (hne : selectors ≠ []) :
    Ensures (withoutBlock t selectors) IsRule := by
  unfold withoutBlock
  split
  · exact .seq fun name => .seq fun args => .ok trivial
  · split
    · exact .ok ⟨rfl, hne, trivial⟩
    · exact .seq fun name => .ok trivial

/-! ## Statements -/

/-- A selector list that holds a phrase is read as at least one selector. -/
theorem selectorsOf_ne_nil (source : List Char) (ts : List Tree) (h : ∃ s ∈ ts, s.phrase?.isSome) :
    Ensures (selectorsOf source ts) (· ≠ []) := by
  fun_induction selectorsOf source ts with
  | case1 => simp at h
  | case2 token ts ih =>
    refine ih ?_
    obtain ⟨s, hs, hphrase⟩ := h
    rcases List.mem_cons.mp hs with rfl | hs
    · simp [Tree.phrase?] at hphrase
    · exact ⟨s, hs, hphrase⟩
  | case3 => exact .seq fun own => .seq fun targets => .seq fun rest => .ok (List.cons_ne_nil _ _)
  | case4 => exact .seq fun head => .seq fun rest => .ok (List.cons_ne_nil _ _)

theorem required_areRules (t : Tree) {rules : Option (List Node)} (h : IsBlock rules) :
    Ensures (required t rules) AreRules := by
  cases rules with
  | none => exact missing_ensures _ _
  | some rules => exact .ok h

/-- What a statement is read as: a rule, or nothing. -/
def IsRule? (n : Option Node) : Prop := ∀ m, n = some m → m.IsRule

theorem IsRule?.some {n : Node} (h : n.IsRule) : IsRule? (some n) := by
  intro m hm
  cases hm
  exact h

mutual
/-- Every statement is read as a rule or not at all, by induction on the tree. -/
theorem statement_isRule (source : List Char) (t : Tree) (ht : t.Selected) :
    Ensures (statement source t) IsRule? := by
  unfold statement
  split
  · exact Ensures.map (assignment_isRule _) fun _ => .some
  · exact Ensures.map (declaration_isRule source _) fun _ => .some
  · next list parts =>
    obtain ⟨hselected, -, hparts⟩ := ht
    obtain ⟨_, _, heq, hphrase⟩ := hselected rfl
    cases heq
    refine .bind (selectorsOf_ne_nil source _ hphrase) fun selectors hne => ?_
    split
    · exact .bind (withoutBlock_isRule _ hne) fun n hn => .ok (.some hn)
    · split
      · refine .seq fun mixin => .seq fun block => .seq fun rules => .ok (.some ?_)
        trivial
      · refine .bind (blockIn_isBlock source parts hparts) fun block hblock => ?_
        refine .bind (required_areRules _ hblock) fun rules hrules => ?_
        exact .ok (.some ⟨rfl, hne, hrules⟩)
  · exact Ensures.map (importRule_isRule _) fun _ => .some
  · exact .ok nofun
  · next parts =>
    obtain ⟨-, ⟨-, hparts⟩, -⟩ := ht
    refine .bind (mediaFeatures_isValue _) fun features hfeatures => ?_
    refine .bind (blockIn_isBlock source parts hparts) fun block hblock => ?_
    refine .bind (required_areRules _ hblock) fun rules hrules => ?_
    exact .ok (.some ⟨hfeatures, hrules⟩)
  · next parts =>
    obtain ⟨-, ⟨-, hparts⟩, -⟩ := ht
    refine .bind (header_isHeader source _) fun content hcontent => ?_
    refine .bind (blockIn_isBlock source parts hparts) fun block hblock => ?_
    split
    · exact .ok (.some ⟨hcontent, hblock⟩)
    · exact missing_ensures _ _
  · exact .error
termination_by sizeOf t
theorem statements_areRules (source : List Char) (ts : List Tree) (hts : Tree.SelectedAll ts) :
    Ensures (statements source ts) AreRules := by
  unfold statements
  split
  · exact .ok trivial
  · next t ts =>
    refine .bind (statement_isRule source t hts.1) fun head hhead => ?_
    refine .bind (statements_areRules source ts hts.2) fun rest hrest => .ok ?_
    cases head with
    | none => exact hrest
    | some n => exact ⟨hhead n rfl, hrest⟩
termination_by sizeOf ts
theorem blockIn_isBlock (source : List Char) (ts : List Tree) (hts : Tree.SelectedAll ts) :
    Ensures (blockIn source ts) IsBlock := by
  unfold blockIn
  split
  · exact .ok trivial
  · next inner _ _ =>
    obtain ⟨⟨-, -, ⟨-, hinner⟩, -⟩, -⟩ := hts
    exact Ensures.map (statements_areRules source inner hinner) fun _ h => h
  · next ts _ => exact blockIn_isBlock source ts hts.2
termination_by sizeOf ts
end

end Reading

/-- **The rules of a stylesheet that was read have the shape of rules.** -/
theorem Ruleset.areRules_ofText {source : String} {r : Ruleset}
    (h : Ruleset.ofText source = .ok r) :
    ∃ rules, r = .ofRules rules ∧ AreRules rules := by
  unfold Ruleset.ofText at h
  dsimp only at h
  split at h
  · cases h
  · obtain ⟨rules, hrules, h⟩ := exists_of_bind_eq_ok h
    cases h
    refine ⟨rules, rfl, Reading.statements_areRules _ _ ?_ rules hrules⟩
    exact Tree.selectedAll_iff.mpr (Parse.selected_ofText source)

end LessCss
