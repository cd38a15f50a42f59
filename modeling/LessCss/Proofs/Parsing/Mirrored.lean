import LessCss.Proofs.Parsing.Mirroring

/-!
# Phrases at other places

Every phrase below the statements does the same at corresponding places of two texts: it takes the
same tokens and finds the same tree, or it fails at the same token.  The claim about a phrase is
proved by going through its definition once; what it looks at on its way is the same in both texts.
-/

namespace LessCss.Parser

open Transfer

variable {x : Transfer} {near : Bool} {bound : Nat}

/-! ## Selectors -/

/-- A name is the same in both texts. -/
theorem name_mirrors : x.Consumes near bound x.tree name name := by
  refine .node ((Mirrors.take _ _ (by decide)).bind fun head => ?_)
  refine (Mirrors.repeatWhile (fun c d hcd => ?_) (fun c hc => ?_) fun n _ => ?_).bind
    fun more => .pure rfl
  · rw [hcd.isTight_eq, hcd.isAtAny_eq]
  · rw [Cursor.isAtAny_of_rest_nil hc, Bool.and_false]
  · exact .single (.take _ _ (by decide))

theorem pseudo_mirrors : x.Consumes near bound x.tree pseudo pseudo := by
  refine .node ((Mirrors.expect _ (by decide)).bind fun colon => .here_bind fun c d hcd => ?_)
  rw [hcd.isTight_eq]
  refine Mirrors.ite_bind (.accept _ (by decide)) (.pure rfl) fun second =>
    .here_bind fun c d hcd => ?_
  rw [hcd.isTight_eq, hcd.isAt_eq]
  split
  · exact .fail _ _
  · refine (Mirrors.take _ _ (by decide)).passes.bind fun word => ?_
    exact Mirrors.ite_bind (.balanced _) (.pure rfl) fun inner => .pure (by simp)

theorem attributeComparison_mirrors :
    x.Passes bound x.row attributeComparison attributeComparison := by
  refine .here_bind fun c d hcd => ?_
  rw [hcd.isAt_eq]
  split
  · refine (Mirrors.expect _ (by decide)).passes.bind fun sign => .here_bind fun c d hcd => ?_
    rw [hcd.isAtAny_eq]
    split
    · exact (Mirrors.take _ _ (by decide)).passes.bind fun value => .pure rfl
    · exact .fail _ _
  · exact .pure rfl

theorem attributeSelector_mirrors :
    x.Consumes near bound x.tree attributeSelector attributeSelector := by
  refine .node ((Mirrors.expect _ (by decide)).bind fun left => ?_)
  refine (Mirrors.expect _ (by decide)).passes.bind fun name => attributeComparison_mirrors.bind
    fun test => ?_
  refine (Mirrors.accept _ (by decide)).bind fun modifier => ?_
  exact (Mirrors.expect _ (by decide)).passes.bind fun right => .pure (by simp)

theorem selectorPart_mirrors : x.Consumes near bound x.tree selectorPart selectorPart := by
  refine .node (.here_bind fun c d hcd => ?_)
  rw [hcd.kind?_eq]
  -- the same choice on both sides
  split
  · exact .single attributeSelector_mirrors
  · exact .single pseudo_mirrors
  · refine (Mirrors.expect _ (by decide)).bind fun parent => .here_bind fun c d hcd => ?_
    rw [hcd.isTight_eq]
    exact Mirrors.ite_bind (.accept _ (by decide)) (.pure rfl) fun tail => .pure rfl
  · refine (Mirrors.expect _ (by decide)).bind fun dot => .here_bind fun c d hcd => ?_
    rw [hcd.isTight_eq]
    split
    · exact name_mirrors.passes.bind fun name => .pure rfl
    · exact .fail _ _
  · exact .single (.take _ _ (by decide))

theorem simpleSelector_mirrors : x.Consumes near bound x.tree simpleSelector simpleSelector := by
  refine .node (.here_bind fun c d hcd => ?_)
  have hmore (head : Tree) : x.Passes (bound - 1) x.row
      (do let more ← repeatWhile (fun c => c.isTight && startsHere c .selectorPart) do
            return [← selectorPart]
          return head :: more)
      (do let more ← repeatWhile (fun c => c.isTight && startsHere c .selectorPart) do
            return [← selectorPart]
          return x.tree head :: more) := by
    refine (Mirrors.repeatWhile (fun c d hcd => ?_) (fun c hc => ?_) fun n _ => ?_).bind
      fun more => .pure rfl
    · rw [hcd.isTight_eq, hcd.startsHere_eq]
    · rw [Cursor.startsHere_of_rest_nil hc, Bool.and_false]
    · exact .single selectorPart_mirrors
  rw [hcd.startsHere_eq, hcd.startsHere_eq]
  dsimp only
  split
  · exact (Mirrors.take _ _ (by decide)).bind hmore
  · exact Mirrors.ite_bind selectorPart_mirrors (.fail _ _) hmore

theorem combinator_mirrors : x.Consumes near bound x.tree combinator combinator :=
  .node (.single (.take _ _ (by decide)))

/-- A selector is the same in both texts, if the bound allows for the tokens that follow. -/
theorem selectorWithin_mirrors (inExtend : Bool) (n : Nat) : ∀ near m, n + x.tail.length ≤ m →
    x.Consumes near n x.tree (selectorWithin inExtend n) (selectorWithin inExtend m) := by
  induction n with
  | zero =>
    intro near m _
    cases m with
    | zero => exact .node (.single simpleSelector_mirrors)
    | succ m =>
      -- no tokens are left, so that nothing more is looked for behind the first selector
      refine .node (simpleSelector_mirrors.bind fun head => fun c d hcd => ?_)
      have hnil : d.rest = [] := hcd.rest_nil hcd.rest_eq_nil
      change x.Alike _ _ _ ((if startsHere d .combinator then _
        else if d.hasGap && startsHere d .selector && !(inExtend && isAtAllWord d) then _
        else pure [x.tree head] : Parser (List Tree)) d)
      rw [Cursor.startsHere_of_rest_nil hnil, Cursor.startsHere_of_rest_nil hnil, Bool.and_false]
      exact .found rfl hcd
  | succ n ih =>
    intro near m hm
    obtain ⟨m, rfl⟩ : ∃ m', m = m' + 1 := ⟨m - 1, by omega⟩
    have hrest := (ih true m (by omega)).passes
    refine .node (simpleSelector_mirrors.bind fun head => .here_bind fun c d hcd => ?_)
    rw [hcd.startsHere_eq, hcd.startsHere_eq, hcd.hasGap_eq, hcd.isAtAllWord_eq]
    split
    · exact combinator_mirrors.passes.bind fun sign => hrest.bind fun rest => .pure rfl
    · split
      · exact hrest.bind fun rest => .pure rfl
      · exact .pure rfl

/-- So is a selector without a bound. -/
theorem selector_mirrors (inExtend : Bool) :
    x.Consumes near bound x.tree (selector inExtend) (selector inExtend) :=
  .sized fun n m hm => selectorWithin_mirrors inExtend n near m hm

theorem extendClause_mirrors : x.Consumes near bound x.tree extendClause extendClause := by
  refine .node ((Mirrors.expect _ (by decide)).bind fun head => ?_)
  refine (selector_mirrors true).passes.bind fun target => ?_
  refine (Mirrors.repeatWhile (fun c d hcd => hcd.isAt_eq _)
    (fun c hc => Cursor.isAt_of_rest_nil hc _)
    fun n _ => .pair (.expect _ (by decide)) (selector_mirrors true).passes).bind fun more => ?_
  refine .here_bind fun c d hcd => ?_
  rw [hcd.isAtAllWord_eq]
  refine Mirrors.ite_bind (.accept _ (by decide)) (.pure rfl) fun all => ?_
  exact (Mirrors.expect _ (by decide)).passes.bind fun right => .pure (by simp)

theorem selectorWithExtend_mirrors :
    x.Consumes near bound x.row selectorWithExtend selectorWithExtend := by
  refine (selector_mirrors false).bind fun head => .here_bind fun c d hcd => ?_
  rw [hcd.isAt_eq]
  split
  · exact extendClause_mirrors.passes.bind fun clause => .pure rfl
  · exact .pure rfl

theorem selectorList_mirrors : x.Consumes near bound x.tree selectorList selectorList := by
  refine .node (selectorWithExtend_mirrors.bind fun head => ?_)
  refine (Mirrors.repeatWhile (fun c d hcd => hcd.isAt_eq _)
    (fun c hc => Cursor.isAt_of_rest_nil hc _)
    fun n _ => ?_).bind fun more => .pure (by simp)
  exact (Mirrors.expect _ (by decide)).bind fun comma => selectorWithExtend_mirrors.passes.bind
    fun ts => .pure rfl

/-! ## Values -/

section Values

variable {inner inner' : Parser Tree} (hinner : ∀ n ≤ bound, x.Consumes true n x.tree inner inner')

include hinner

theorem productOver_mirrors :
    ∀ n ≤ bound, x.Consumes true n x.tree (productOver inner) (productOver inner') := by
  intro n hn
  refine .node ((hinner n hn).bind fun head => ?_)
  exact (Mirrors.repeatWhile (fun c d hcd => hcd.isAtAny_eq _)
    (fun c hc => Cursor.isAtAny_of_rest_nil hc _)
    fun i _ => .pair (.take _ _ (by decide)) (hinner (i - 1) (by omega)).passes).bind
      fun more => .pure rfl

theorem sumOver_mirrors :
    ∀ n ≤ bound, x.Consumes true n x.tree (sumOver inner) (sumOver inner') := by
  have hproduct := productOver_mirrors hinner
  intro n hn
  refine .node ((hproduct n hn).bind fun head => ?_)
  refine (Mirrors.repeatWhile (fun c d hcd => ?_) (fun c hc => ?_) fun i _ => ?_).bind
    fun more => .pure rfl
  · rw [hcd.isSign_eq, hcd.isAt_eq]
  · rw [Cursor.isAt_of_rest_nil hc, Cursor.isAt_of_rest_nil hc]
    rfl
  · exact .pair (.take _ _ (by decide)) (hproduct (i - 1) (by omega)).passes

theorem expressionOver_mirrors :
    ∀ n ≤ bound, x.Consumes true n x.tree (expressionOver inner) (expressionOver inner') := by
  have hsum := sumOver_mirrors hinner
  intro n hn
  refine .node ((hsum n hn).bind fun head => ?_)
  exact (Mirrors.repeatWhile (fun c d hcd => hcd.startsHere_eq _)
    (fun c hc => Cursor.startsHere_of_rest_nil hc _) fun i _ => .single (hsum i (by omega))).bind
      fun more => .pure rfl

theorem valueOver_mirrors :
    ∀ n ≤ bound, x.Consumes true n x.tree (valueOver inner) (valueOver inner') := by
  have hexpression := expressionOver_mirrors hinner
  intro n hn
  refine .node ((hexpression n hn).bind fun head => ?_)
  exact (Mirrors.repeatWhile (fun c d hcd => hcd.isAt_eq _)
    (fun c hc => Cursor.isAt_of_rest_nil hc _)
    fun i _ => .pair (.expect _ (by decide)) (hexpression (i - 1) (by omega)).passes).bind
      fun more => .pure rfl

omit hinner in
theorem featureName_mirrors : x.Passes bound x.row featureName featureName := by
  refine .here_bind fun c d hcd => ?_
  rw [hcd.isAt_second_eq (by decide)]
  split
  · exact .pair (Mirrors.expect _ (by decide)).passes (Mirrors.expect _ (by decide)).passes
  · exact .pure rfl

/-- The values inside of parentheses stand behind the opening one. -/
theorem parensOver_mirrors :
    ∀ n ≤ bound + 1, x.Consumes true n x.tree (parensOver inner) (parensOver inner') := by
  intro n hn
  refine .node ((Mirrors.expect _ (by decide)).bind fun left => featureName_mirrors.bind
    fun feature => ?_)
  refine (valueOver_mirrors hinner (n - 1) (by omega)).passes.bind fun value => ?_
  exact (Mirrors.expect _ (by decide)).passes.bind fun right => .pure (by simp)

/-- The operands inside of an operand stand behind a token of it. -/
theorem operandParts_mirrors :
    x.Consumes true (bound + 1) x.row (operandParts inner) (operandParts inner') := by
  refine .here_bind fun c d hcd => ?_
  rw [hcd.kind?_eq]
  split
  · refine (Mirrors.expect _ (by decide)).bind fun minus => .here_bind fun c d hcd => ?_
    rw [hcd.isTight_eq]
    split
    · exact (hinner bound (Nat.le_refl _)).passes.bind fun operand => .pure rfl
    · exact .fail _ _
  · refine (Mirrors.expect _ (by decide)).bind fun tilde => .here_bind fun c d hcd => ?_
    rw [hcd.isTight_eq]
    split
    · exact (Mirrors.expect _ (by decide)).passes.bind fun content => .pure rfl
    · exact .fail _ _
  · refine (Mirrors.expect _ (by decide)).bind fun head => .here_bind fun c d hcd => ?_
    rw [hcd.isAt_eq]
    split
    · exact (Mirrors.expect _ (by decide)).passes.bind fun right => .pure rfl
    · refine (valueOver_mirrors hinner bound (Nat.le_refl _)).passes.bind fun value => ?_
      exact (Mirrors.expect _ (by decide)).passes.bind fun right => .pure rfl
  · exact .single (parensOver_mirrors hinner (bound + 1) (Nat.le_refl _))
  · exact .single (.take _ _ (by decide))

end Values

/-- An operand is the same in both texts, however deep parentheses are nested. -/
theorem operandWithin_mirrors (n : Nat) : ∀ m, n + x.tail.length ≤ m → ∀ i ≤ n,
    x.Consumes true i x.tree (operandWithin n) (operandWithin m) := by
  induction n with
  | zero =>
    intro m _ i hi c d hcd
    have hnil : c.rest = [] :=
      List.length_eq_zero_iff.mp (Nat.le_zero.mp (Nat.le_trans hcd.bounded hi))
    have hright : operandWithin m d = .failed ⟨.operand, first .operand, d.next?⟩ d := by
      obtain ⟨previous, rest⟩ := d
      obtain rfl : rest = [] := hcd.rest_nil hnil
      cases m <;> rfl
    rw [hright]
    exact Mirrors.fail _ _ c d hcd
  | succ n ih =>
    intro m hm
    obtain ⟨m, rfl⟩ : ∃ m', m = m' + 1 := ⟨m - 1, by omega⟩
    have hinner := ih m (by omega)
    intro i hi
    cases i with
    | zero =>
      have hone : x.Consumes true 1 x.row _ _ := operandParts_mirrors fun i hi =>
        hinner i (by omega)
      exact (Mirrors.node hone).mono (fun _ _ hcd => hcd.mono (Nat.zero_le _)) fun _ _ hcd => hcd
    | succ i => exact .node (operandParts_mirrors fun j hj => hinner j (by omega))

theorem expression_mirrors : x.Consumes true bound x.tree expression expression :=
  .sized fun n m hm => expressionOver_mirrors (operandWithin_mirrors n m hm) n (Nat.le_refl _)

theorem value_mirrors : x.Consumes true bound x.tree value value :=
  .sized fun n m hm => valueOver_mirrors (operandWithin_mirrors n m hm) n (Nat.le_refl _)

theorem parens_mirrors : x.Consumes true bound x.tree parens parens :=
  .sized fun n m hm => parensOver_mirrors (operandWithin_mirrors n m hm) n (Nat.le_succ _)

/-! ## Arguments, guards and media queries -/

theorem argument_mirrors : x.Consumes true bound x.tree argument argument := by
  have hname : x.Passes bound x.row argumentName argumentName := by
    refine .here_bind fun c d hcd => ?_
    rw [hcd.isAt_second_eq (by decide)]
    split
    · exact .pair (Mirrors.expect _ (by decide)).passes (Mirrors.expect _ (by decide)).passes
    · exact .pure rfl
  exact .node (hname.bind fun name => expression_mirrors.bind fun content => .pure (by simp))

theorem condition_mirrors : x.Consumes true bound x.row condition condition := by
  refine .here_bind fun c d hcd => ?_
  rw [hcd.isAt_eq, hcd.any_text_eq]
  refine Mirrors.optional_bind (Mirrors.expect _ (by decide)).passes fun negation => ?_
  refine (Mirrors.expect _ (by decide)).bind fun left => ?_
  exact (Mirrors.balanced _).bind fun rest => .pure (by simp)

theorem guard_mirrors : x.Consumes true bound x.tree guard guard := by
  refine .node ((Mirrors.expect _ (by decide)).bind fun head => condition_mirrors.passes.bind
    fun first => ?_)
  refine (Mirrors.repeatWhile (fun c d hcd => hcd.isAtAny_eq _)
    (fun c hc => Cursor.isAtAny_of_rest_nil hc _) fun n _ => ?_).bind fun more => .pure (by simp)
  exact (Mirrors.take _ _ (by decide)).bind fun joiner => condition_mirrors.passes.bind
    fun ts => .pure rfl

theorem mediaQuery_mirrors : x.Passes bound x.tree mediaQuery mediaQuery := by
  refine .node ((Mirrors.repeatWhile (fun c d hcd => hcd.startsHere_eq _)
    (fun c hc => Cursor.startsHere_of_rest_nil hc _) fun n _ => .here_bind fun c d hcd => ?_).bind
      fun parts => ?_)
  · rw [hcd.isAt_eq]
    split
    · exact .single parens_mirrors
    · exact .single (.take _ _ (by decide))
  · rw [row, List.isEmpty_map]
    split
    · exact .fail _ _
    · exact .pure rfl

theorem mediaList_mirrors : x.Passes bound x.tree mediaList mediaList := by
  refine .node (mediaQuery_mirrors.bind fun head => ?_)
  exact (Mirrors.repeatWhile (fun c d hcd => hcd.isAt_eq _)
    (fun c hc => Cursor.isAt_of_rest_nil hc _)
    fun n _ => .pair (.expect _ (by decide)) mediaQuery_mirrors).bind fun more => .pure rfl

/-! ## Statements without blocks

These end with a semicolon, so that nothing need be left to come behind them. -/

theorem ending_mirrors (phrase : Phrase) :
    x.Mirrors (x.Fits true bound) (x.At true) x.row (ending phrase) (ending phrase) := by
  refine (Mirrors.accept _ (by decide)).bind fun important => .here_bind fun c d hcd => ?_
  rw [hcd.isAt_eq]
  split
  · exact (Mirrors.pure rfl).ends
  · exact (Mirrors.expect_stop _ _).bind fun semicolon => .pure (by simp)

theorem declaration_mirrors :
    x.Mirrors (x.Fits near bound) (x.At true) x.tree declaration declaration := by
  refine .node (name_mirrors.bind fun property => (Mirrors.expect _ (by decide)).passes.bind
    fun colon => ?_)
  exact value_mirrors.passes.bind fun content => (ending_mirrors _).bind fun rest => .pure rfl

theorem assignment_mirrors :
    x.Mirrors (x.Fits near bound) (x.At true) x.tree assignment assignment := by
  refine .node ((Mirrors.expect _ (by decide)).bind fun head => ?_)
  refine (Mirrors.expect _ (by decide)).passes.bind fun colon => ?_
  exact value_mirrors.passes.bind fun content => (ending_mirrors _).bind fun rest => .pure rfl

theorem importOptions_mirrors : x.Passes bound x.row importOptions importOptions := by
  refine .here_bind fun c d hcd => ?_
  rw [hcd.isAt_eq]
  split
  · refine (Mirrors.expect _ (by decide)).passes.bind fun left => ?_
    refine (Mirrors.expect _ (by decide)).passes.bind fun option => ?_
    refine (Mirrors.repeatWhile (fun c d hcd => hcd.isAt_eq _)
      (fun c hc => Cursor.isAt_of_rest_nil hc _)
      fun n _ => .pair (.expect _ (by decide)) (Mirrors.expect _ (by decide)).passes).bind
        fun more => ?_
    exact (Mirrors.expect _ (by decide)).passes.bind fun right => .pure (by simp)
  · exact .pure rfl

theorem importRule_mirrors :
    x.Mirrors (x.Fits near bound) (x.At true) x.tree importRule importRule := by
  refine .node ((Mirrors.expect _ (by decide)).bind fun head => importOptions_mirrors.bind
    fun options => ?_)
  refine (Mirrors.take _ _ (by decide)).passes.bind fun path => .here_bind fun c d hcd => ?_
  rw [hcd.startsHere_eq]
  refine Mirrors.optional_bind mediaList_mirrors fun media => ?_
  exact (Mirrors.expect_stop _ _).bind fun semicolon => .pure (by simp)

theorem pluginArguments_mirrors : x.Passes bound x.row pluginArguments pluginArguments := by
  refine .here_bind fun c d hcd => ?_
  rw [hcd.isAt_eq]
  split
  · refine .single (.node ((Mirrors.expect _ (by decide)).passes.bind fun left => ?_))
    exact (Mirrors.balanced _).bind fun rest => .pure rfl
  · exact .pure rfl

theorem pluginRule_mirrors :
    x.Mirrors (x.Fits near bound) (x.At true) x.tree pluginRule pluginRule := by
  refine .node ((Mirrors.expect _ (by decide)).bind fun head => pluginArguments_mirrors.bind
    fun args => ?_)
  refine (Mirrors.take _ _ (by decide)).passes.bind fun path => ?_
  exact (Mirrors.expect_stop _ _).bind fun semicolon => .pure (by simp)

theorem valuePrelude_mirrors : x.Consumes true bound x.tree valuePrelude valuePrelude := by
  refine value_mirrors.bind fun content => .here_bind fun c d hcd => ?_
  rw [hcd.isAtAny_eq]
  split
  · exact .pure rfl
  · exact .fail _ _

theorem rawPrelude_mirrors : x.Passes bound x.row rawPrelude rawPrelude :=
  .repeatWhile (fun _ _ hcd => hcd.isAtAny_eq _) (fun _ hc => Cursor.isAtAny_of_rest_nil hc _)
    fun _ _ => .single (.take _ _ (by decide))

/-- The prelude of an at-rule is the same in both texts. -/
theorem atRulePrelude_mirrors : x.Passes bound x.row atRulePrelude atRulePrelude := by
  refine .here_bind fun c d hcd => ?_
  rw [hcd.isAtAny_eq]
  split
  · exact .pure rfl
  · refine valuePrelude_mirrors.attempt.bind fun early => ?_
    cases early with
    | some content => exact .pure rfl
    | none => exact rawPrelude_mirrors

end LessCss.Parser
