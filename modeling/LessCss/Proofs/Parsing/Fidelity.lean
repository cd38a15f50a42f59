import LessCss.Proofs.Parsing.Taking

/-!
# A parse keeps its tokens

Every phrase spells the tokens that were taken for it.  For phrases without statements inside this
holds as it stands; a phrase with statements inside has lost tokens only where a mismatch was noted,
and what it kept is in order.  The leaves of a parse are therefore a part of the tokens, and all of
them if there is no mismatch (`Parse.leaves_ofText`).
-/

namespace LessCss

namespace Parser

open LessCss.Tree

/-! ## Selectors -/

/-- A name keeps all tokens that it takes. -/
theorem name_takes : name.Takes Spells := by
  refine Takes.node (by decide) ?_
  refine (Takes.take_spells _ _).bind fun head _ hhead => ?_
  refine (Takes.repeatWhile (Takes.single (Takes.take_spells _ _))).bind fun more _ hmore => ?_
  exact .pure ⟨by simpa using SpellsRow.cons hhead hmore, by simp⟩

theorem pseudo_takes : pseudo.Takes Spells := by
  refine Takes.node (by decide) ?_
  refine (Takes.expect _ _).bind fun colon _ hcolon => Takes.here_bind fun c => ?_
  refine Takes.ite_bind (Takes.accept _ _) (.pure .nil) fun second _ hsecond =>
    Takes.here_bind fun c => ?_
  split
  · exact Takes.fail _ _
  · refine (Takes.take_spells _ _).bind fun word _ hword => ?_
    refine Takes.ite_bind (Takes.balanced _) (.pure .nil) fun inner _ hinner => .pure ⟨?_, by simp⟩
    simpa using SpellsRow.cons hcolon (hsecond.append (.cons hword hinner))

theorem attributeComparison_takes : attributeComparison.Takes SpellsRow := by
  refine Takes.here_bind fun c => ?_
  split
  · refine (Takes.expect _ _).bind fun sign _ hsign => Takes.here_bind fun c => ?_
    split
    · refine (Takes.take_spells _ _).bind fun value _ hvalue => .pure ?_
      exact SpellsRow.cons hsign (.cons hvalue .nil)
    · exact Takes.fail _ _
  · exact .pure .nil

theorem attributeSelector_takes : attributeSelector.Takes Spells := by
  refine Takes.node (by decide) ?_
  refine (Takes.expect _ _).bind fun left _ hleft => ?_
  refine (Takes.expect _ _).bind fun name _ hname => ?_
  refine attributeComparison_takes.bind fun test _ htest => ?_
  refine (Takes.accept _ _).bind fun modifier _ hmodifier => ?_
  refine (Takes.expect _ _).bind fun right _ hright => .pure ⟨?_, by simp⟩
  simpa using SpellsRow.cons hleft
    (.cons hname (htest.append (hmodifier.append (.cons hright .nil))))

/-- A phrase of one part is that part. -/
theorem single_takes {p : Parser Tree} (hp : p.Takes Spells) :
    (do return [← p] : Parser (List Tree)).Takes fun taken ts => SpellsRow taken ts ∧ ts ≠ [] :=
  hp.bind fun _ _ h => .pure ⟨.cons h .nil, by simp⟩

theorem selectorPart_takes : selectorPart.Takes Spells := by
  refine Takes.node (by decide) ?_
  refine Takes.here_bind fun c => ?_
  split
  · exact single_takes attributeSelector_takes
  · exact single_takes pseudo_takes
  · refine (Takes.expect _ _).bind fun parent _ hparent => Takes.here_bind fun c => ?_
    refine Takes.ite_bind (Takes.accept _ _) (.pure .nil) fun tail _ htail => .pure ⟨?_, by simp⟩
    simpa using SpellsRow.cons hparent htail
  · refine (Takes.expect _ _).bind fun dot _ hdot => Takes.here_bind fun c => ?_
    split
    · refine name_takes.bind fun name _ hname => .pure ⟨?_, by simp⟩
      exact SpellsRow.cons hdot (.cons hname .nil)
    · exact Takes.fail _ _
  · exact single_takes (Takes.take_spells _ _)

theorem simpleSelector_takes : simpleSelector.Takes Spells := by
  refine Takes.node (by decide) ?_
  refine Takes.here_bind fun c => ?_
  have hmore (head : Tree) (taken : List Token) (hhead : Spells taken head) :
      (do let more ← repeatWhile (fun c => c.isTight && startsHere c .selectorPart) do
            return [← selectorPart]
          return head :: more : Parser (List Tree)).Takes fun more ts =>
        SpellsRow (taken ++ more) ts ∧ ts ≠ [] :=
    (Takes.repeatWhile (Takes.single selectorPart_takes)).bind fun more _ hmore =>
      .pure ⟨by simpa using SpellsRow.cons hhead hmore, by simp⟩
  dsimp only
  split
  · exact (Takes.take_spells _ _).bind hmore
  · exact Takes.ite_bind selectorPart_takes (Takes.fail _ _) hmore

theorem combinator_takes : combinator.Takes Spells :=
  Takes.node (by decide) (single_takes (Takes.take_spells _ _))

/-- A selector is a phrase, and not a single token. -/
theorem selectorWithin_takes (inExtend : Bool) (bound : Nat) :
    (selectorWithin inExtend bound).Takes fun taken t => Spells taken t ∧ t.phrase?.isSome := by
  have hnode {p : Parser (List Tree)} (hp : p.Takes fun taken ts => SpellsRow taken ts ∧ ts ≠ []) :
      (node .selector p).Takes fun taken t => Spells taken t ∧ t.phrase?.isSome :=
    (Takes.node_of (P := fun _ => True) (by decide) (hp.mono fun _ _ h => ⟨h, trivial⟩)).mono
      fun _ _ ⟨h, _, ht, _⟩ => ⟨h, by rw [ht]; rfl⟩
  induction bound with
  | zero => exact hnode (single_takes simpleSelector_takes)
  | succ bound ih =>
    refine hnode (simpleSelector_takes.bind fun head _ hhead => Takes.here_bind fun c => ?_)
    split
    · refine combinator_takes.bind fun sign _ hsign => ih.bind fun rest _ hrest =>
        .pure ⟨?_, by simp⟩
      exact SpellsRow.cons hhead (.cons hsign (.cons hrest.1 .nil))
    · split
      · refine ih.bind fun rest _ hrest => .pure ⟨?_, by simp⟩
        exact SpellsRow.cons hhead (.cons hrest.1 .nil)
      · exact .pure ⟨.cons hhead .nil, by simp⟩

theorem selector_takes (inExtend : Bool) :
    (selector inExtend).Takes fun taken t => Spells taken t ∧ t.phrase?.isSome :=
  fun c => selectorWithin_takes inExtend c.rest.length c

theorem extendClause_takes : extendClause.Takes Spells := by
  refine Takes.node (by decide) ?_
  refine (Takes.expect _ _).bind fun head _ hhead => ?_
  refine (selector_takes true).bind fun target _ htarget => ?_
  have hitem : (do return [← expect .extendClause .comma, ← selector true] :
      Parser (List Tree)).Takes SpellsRow :=
    (Takes.expect _ _).bind fun _ _ hcomma => (selector_takes true).bind fun _ _ hs =>
      .pure (.cons hcomma (.cons hs.1 .nil))
  refine (Takes.repeatWhile hitem).bind fun more _ hmore => Takes.here_bind fun c => ?_
  refine Takes.ite_bind (Takes.accept _ _) (.pure .nil) fun all _ hall => ?_
  refine (Takes.expect _ _).bind fun right _ hright => .pure ⟨?_, by simp⟩
  simpa using SpellsRow.cons hhead
    (.cons htarget.1 (hmore.append (hall.append (.cons hright .nil))))

theorem selectorWithExtend_takes :
    selectorWithExtend.Takes fun taken ts => SpellsRow taken ts ∧ ∃ s ∈ ts, s.phrase?.isSome := by
  refine (selector_takes false).bind fun head _ hhead => Takes.here_bind fun c => ?_
  split
  · refine extendClause_takes.bind fun clause _ hclause => .pure ⟨?_, head, by simp, hhead.2⟩
    exact SpellsRow.cons hhead.1 (.cons hclause .nil)
  · exact .pure ⟨.cons hhead.1 .nil, head, by simp, hhead.2⟩

/-- A selector list has a selector among its parts. -/
theorem selectorList_takes :
    selectorList.Takes fun taken t => Spells taken t ∧ ∃ s ∈ t.children, s.phrase?.isSome := by
  have hitem : (do return (← expect .selectorList .comma) :: (← selectorWithExtend) :
      Parser (List Tree)).Takes SpellsRow :=
    (Takes.expect _ _).bind fun _ _ hcomma => selectorWithExtend_takes.bind fun _ _ h =>
      .pure (by simpa using SpellsRow.cons hcomma h.1)
  refine Takes.mono (Takes.node_of (P := fun ts => ∃ s ∈ ts, s.phrase?.isSome) (by decide) ?_) ?_
  · refine selectorWithExtend_takes.bind fun head _ ⟨hhead, s, hs, hphrase⟩ => ?_
    refine (Takes.repeatWhile hitem).bind fun more _ hmore =>
      .pure ⟨⟨?_, ?_⟩, s, by simp [hs], hphrase⟩
    · simpa using hhead.append hmore
    · exact List.append_ne_nil_of_left_ne_nil (List.ne_nil_of_mem hs) _
  · rintro taken t ⟨ht, ts, rfl, hts⟩
    exact ⟨ht, hts⟩

/-! ## Values -/

section Values

variable {inner : Parser Tree} (hinner : inner.Takes (SpellsAs .operand))

include hinner

/-- A product keeps all tokens that it takes, if its operands do. -/
theorem productOver_takes : (productOver inner).Takes (SpellsAs .product) := by
  refine Takes.arrangedNode (by decide) ((Takes.joined hinner).mono fun taken ts ⟨hts, hjoined⟩ =>
    ⟨hts, ?_⟩)
  obtain ⟨head, rest, rfl, hhead, hrest⟩ := hjoined
  exact ⟨hhead, hrest, hts.1.nonempty⟩

theorem sumOver_takes : (sumOver inner).Takes (SpellsAs .sum) := by
  have hproduct := productOver_takes hinner
  refine Takes.arrangedNode (by decide) ((Takes.joined hproduct).mono fun taken ts ⟨hts, hjoined⟩ =>
    ⟨hts, ?_⟩)
  obtain ⟨head, rest, rfl, hhead, hrest⟩ := hjoined
  exact ⟨hhead, hrest⟩

theorem expressionOver_takes : (expressionOver inner).Takes (SpellsAs .expression) := by
  have hsum := sumOver_takes hinner
  have hitem : (do return [← sumOver inner] : Parser (List Tree)).Takes fun taken ts =>
      SpellsRow taken ts ∧ ∀ t ∈ ts, t.phrase? = some .sum :=
    hsum.bind fun _ _ h =>
      .pure ⟨by simpa using SpellsRow.cons h.1 .nil, List.forall_mem_singleton.mpr h.2⟩
  have hmore := Takes.repeatWhile_all (startsHere · .operand) hitem
  refine Takes.arrangedNode (by decide) ?_
  refine hsum.bind fun head _ hhead => hmore.bind fun more _ hmore => .pure ⟨⟨?_, by simp⟩, ?_⟩
  · simpa using SpellsRow.cons hhead.1 hmore.1
  · exact List.forall_mem_cons.mpr ⟨hhead.2, hmore.2⟩

theorem valueOver_takes : (valueOver inner).Takes (SpellsAs .value) := by
  have hexpression := expressionOver_takes hinner
  have hitem :
      (do return [← expect .value .comma, ← expressionOver inner] : Parser (List Tree)).Takes
      fun taken ts => SpellsRow taken ts ∧ ∀ t ∈ ts, t.phrase?.all (· = .expression) :=
    (Takes.take_leaf _ _).bind fun _ _ hcomma => hexpression.bind fun _ _ h =>
      .pure ⟨by simpa using SpellsRow.cons hcomma.1 (.cons h.1 .nil), by simp [hcomma.2, h.2]⟩
  have hmore := Takes.repeatWhile_all (·.isAt .comma) hitem
  refine Takes.arrangedNode (by decide) ?_
  refine hexpression.bind fun head _ hhead => hmore.bind fun more _ hmore =>
    .pure ⟨⟨?_, by simp⟩, ?_⟩
  · simpa using SpellsRow.cons hhead.1 hmore.1
  · exact List.forall_mem_cons.mpr ⟨by simp [hhead.2], hmore.2⟩

omit hinner in
theorem featureName_takes : featureName.Takes fun taken ts =>
    SpellsRow taken ts ∧ ∀ t ∈ ts, t.phrase? = none := by
  refine Takes.here_bind fun c => ?_
  split
  · refine (Takes.take_leaf _ _).bind fun name _ hname => (Takes.take_leaf _ _).bind
      fun colon _ hcolon => ?_
    exact .pure ⟨.cons hname.1 (.cons hcolon.1 .nil), by simp [hname.2, hcolon.2]⟩
  · exact .pure ⟨.nil, nofun⟩

theorem parensOver_takes : (parensOver inner).Takes (SpellsAs .parens) := by
  refine Takes.arrangedNode (by decide) ?_
  refine (Takes.take_leaf _ _).bind fun left _ hleft => ?_
  refine featureName_takes.bind fun feature _ hfeature => ?_
  refine (valueOver_takes hinner).bind fun value _ hvalue => ?_
  refine (Takes.take_leaf _ _).bind fun right _ hright => .pure ⟨⟨?_, by simp⟩, ?_⟩
  · simpa using SpellsRow.cons hleft.1 (hfeature.1.append (.cons hvalue.1 (.cons hright.1 .nil)))
  · have hnames : ∀ t ∈ feature, t.phrase?.all (· = .value) := fun t ht => by simp [hfeature.2 t ht]
    refine List.forall_mem_cons.mpr ⟨by simp [hleft.2], List.forall_mem_append.mpr ⟨hnames, ?_⟩⟩
    simp [hvalue.2, hright.2]

theorem operandParts_takes :
    (operandParts inner).Takes fun taken ts => (SpellsRow taken ts ∧ ts ≠ []) ∧
    Arrangement .operand ts := by
  refine Takes.here_bind fun c => ?_
  split
  · refine (Takes.expect _ _).bind fun minus _ hminus => Takes.here_bind fun c => ?_
    split
    · refine hinner.bind fun x _ hx => .pure ⟨⟨.cons hminus (.cons hx.1 .nil), by simp⟩, ?_⟩
      simp [Arrangement, hx.2]
    · exact Takes.fail _ _
  · refine (Takes.expect _ _).bind fun tilde _ htilde => Takes.here_bind fun c => ?_
    split
    · refine (Takes.take_leaf _ _).bind fun x _ hx =>
        .pure ⟨⟨.cons htilde (.cons hx.1 .nil), by simp⟩, ?_⟩
      simp [Arrangement, hx.2]
    · exact Takes.fail _ _
  · refine (Takes.expect _ _).bind fun head _ hhead => Takes.here_bind fun c => ?_
    split
    · refine (Takes.take_leaf _ _).bind fun x _ hx =>
        .pure ⟨⟨.cons hhead (.cons hx.1 .nil), by simp⟩, ?_⟩
      simp [Arrangement, hx.2]
    · refine (valueOver_takes hinner).bind fun value _ hvalue => ?_
      refine (Takes.expect _ _).bind fun right _ hright => .pure ⟨⟨?_, by simp⟩, hvalue.2⟩
      exact SpellsRow.cons hhead (.cons hvalue.1 (.cons hright .nil))
  · refine (parensOver_takes hinner).bind fun x _ hx => .pure ⟨⟨.cons hx.1 .nil, by simp⟩, ?_⟩
    simp [Arrangement, hx.2]
  · refine (Takes.take_leaf _ _).bind fun x _ hx => .pure ⟨⟨.cons hx.1 .nil, by simp⟩, ?_⟩
    simp [Arrangement, hx.2]

end Values

/-- An operand keeps all tokens that it takes, however deep parentheses are nested. -/
theorem operandWithin_takes (bound : Nat) : (operandWithin bound).Takes (SpellsAs .operand) := by
  induction bound with
  | zero => exact Takes.fail _ _
  | succ bound ih => exact Takes.arrangedNode (by decide) (operandParts_takes ih)

theorem expression_takes : expression.Takes Spells :=
  fun c => (expressionOver_takes (operandWithin_takes c.rest.length) c).mono fun _ _ h => h.1

theorem value_takes : value.Takes Spells :=
  fun c => (valueOver_takes (operandWithin_takes c.rest.length) c).mono fun _ _ h => h.1

theorem parens_takes : parens.Takes (SpellsAs .parens) :=
  fun c => parensOver_takes (operandWithin_takes c.rest.length) c

/-! ## Arguments, guards and media queries -/

theorem argumentName_takes : argumentName.Takes SpellsRow := by
  refine Takes.here_bind fun c => ?_
  split
  · refine (Takes.expect _ _).bind fun name _ hname => (Takes.expect _ _).bind
      fun colon _ hcolon => ?_
    exact .pure (.cons hname (.cons hcolon .nil))
  · exact .pure .nil

theorem argument_takes : argument.Takes Spells := by
  refine Takes.node (by decide) ?_
  refine argumentName_takes.bind fun name _ hname => expression_takes.bind
    fun content _ hcontent => ?_
  exact .pure ⟨by simpa using hname.append (.cons hcontent .nil), by simp⟩

theorem arguments_takes : arguments.Takes Spells := by
  refine Takes.node (by decide) ?_
  refine (Takes.expect _ _).bind fun left _ hleft => Takes.here_bind fun c => ?_
  split
  · refine (Takes.expect _ _).bind fun right _ hright => .pure ⟨?_, by simp⟩
    exact SpellsRow.cons hleft (.cons hright .nil)
  · refine argument_takes.bind fun head _ hhead => ?_
    have hitem : (do return [← take .arguments (.ofList [.comma, .semicolon]), ← argument] :
        Parser (List Tree)).Takes SpellsRow :=
      (Takes.take_spells _ _).bind fun _ _ hsign => argument_takes.bind fun _ _ h =>
        .pure (.cons hsign (.cons h .nil))
    refine (Takes.repeatWhile hitem).bind fun more _ hmore => ?_
    refine (Takes.expect _ _).bind fun right _ hright => .pure ⟨?_, by simp⟩
    simpa using SpellsRow.cons hleft (.cons hhead (hmore.append (.cons hright .nil)))

theorem condition_takes : condition.Takes SpellsRow := by
  refine Takes.here_bind fun c => ?_
  refine Takes.optional_bind (Takes.expect _ _) fun negation _ hnegation => ?_
  refine (Takes.expect _ _).bind fun left _ hleft => (Takes.balanced _).bind
    fun rest _ hrest => .pure ?_
  simpa using hnegation.append (.cons hleft hrest)

theorem guard_takes : guard.Takes Spells := by
  refine Takes.node (by decide) ?_
  refine (Takes.expect _ _).bind fun head _ hhead => condition_takes.bind
    fun condition _ hcondition => ?_
  have hitem : (do return (← take .guard (.ofList [.and, .or, .comma])) :: (← Parser.condition) :
      Parser (List Tree)).Takes SpellsRow :=
    (Takes.take_spells _ _).bind fun _ _ hjoiner => condition_takes.bind fun _ _ h =>
      .pure (by simpa using SpellsRow.cons hjoiner h)
  refine (Takes.repeatWhile hitem).bind fun more _ hmore => .pure ⟨?_, by simp⟩
  simpa using SpellsRow.cons hhead (hcondition.append hmore)

theorem mediaQuery_takes : mediaQuery.Takes Spells := by
  refine (Takes.arrangedNode (by decide) ?_).mono fun _ _ h => h.1
  refine (Takes.repeatWhile_all (P := fun t => t.phrase?.all (· = .parens)) _ ?_).bind
    fun parts _ hparts => ?_
  · refine Takes.here_bind fun c => ?_
    split
    · exact parens_takes.bind fun t _ h =>
        .pure ⟨by simpa using SpellsRow.cons h.1 .nil, by simp [h.2]⟩
    · refine (Takes.take_leaf _ _).bind fun t _ h => .pure ⟨?_, by simp [h.2]⟩
      simpa using SpellsRow.cons h.1 .nil
  · split
    · exact Takes.fail _ _
    · exact .pure ⟨⟨by simpa using hparts.1, by simp_all⟩, hparts.2⟩

theorem mediaList_takes : mediaList.Takes Spells := by
  refine Takes.node (by decide) ?_
  refine mediaQuery_takes.bind fun head _ hhead => ?_
  have hitem : (do return [← expect .mediaList .comma, ← mediaQuery] :
      Parser (List Tree)).Takes SpellsRow :=
    (Takes.expect _ _).bind fun _ _ hcomma => mediaQuery_takes.bind fun _ _ h =>
      .pure (.cons hcomma (.cons h .nil))
  refine (Takes.repeatWhile hitem).bind fun more _ hmore => ?_
  exact .pure ⟨by simpa using SpellsRow.cons hhead hmore, by simp⟩

/-! ## Statements without blocks -/

theorem ending_takes (phrase : Phrase) : (ending phrase).Takes SpellsRow := by
  refine (Takes.accept _ _).bind fun important _ himportant => Takes.here_bind fun c => ?_
  split
  · exact .pure (by simpa using himportant)
  · refine (Takes.expect _ _).bind fun semicolon _ hsemicolon => .pure ?_
    simpa using himportant.append (.cons hsemicolon .nil)

theorem declaration_takes : declaration.Takes Spells := by
  refine Takes.node (by decide) ?_
  refine name_takes.bind fun property _ hproperty => (Takes.expect _ _).bind
    fun colon _ hcolon => ?_
  refine value_takes.bind fun content _ hcontent => (ending_takes _).bind fun rest _ hrest => ?_
  exact .pure
    ⟨by simpa using SpellsRow.cons hproperty (.cons hcolon (.cons hcontent hrest)), by simp⟩

theorem assignment_takes : assignment.Takes Spells := by
  refine Takes.node (by decide) ?_
  refine (Takes.expect _ _).bind fun head _ hhead => (Takes.expect _ _).bind
    fun colon _ hcolon => ?_
  refine value_takes.bind fun content _ hcontent => (ending_takes _).bind fun rest _ hrest => ?_
  exact .pure ⟨by simpa using SpellsRow.cons hhead (.cons hcolon (.cons hcontent hrest)), by simp⟩

theorem importOptions_takes : importOptions.Takes SpellsRow := by
  refine Takes.here_bind fun c => ?_
  split
  · refine (Takes.expect _ _).bind fun left _ hleft => (Takes.expect _ _).bind
      fun option _ hoption => ?_
    have hitem : (do return [← expect .importRule .comma, ← expect .importRule .ident] :
        Parser (List Tree)).Takes SpellsRow :=
      (Takes.expect _ _).bind fun _ _ hcomma => (Takes.expect _ _).bind fun _ _ h =>
        .pure (.cons hcomma (.cons h .nil))
    refine (Takes.repeatWhile hitem).bind fun more _ hmore => ?_
    refine (Takes.expect _ _).bind fun right _ hright => .pure ?_
    simpa using SpellsRow.cons hleft (.cons hoption (hmore.append (.cons hright .nil)))
  · exact .pure .nil

theorem importRule_takes : importRule.Takes Spells := by
  refine Takes.node (by decide) ?_
  refine (Takes.expect _ _).bind fun head _ hhead => importOptions_takes.bind
    fun options _ hoptions => ?_
  refine (Takes.take_spells _ _).bind fun path _ hpath => Takes.here_bind fun c => ?_
  refine Takes.optional_bind mediaList_takes fun media _ hmedia => ?_
  refine (Takes.expect _ _).bind fun semicolon _ hsemicolon => .pure ⟨?_, by simp⟩
  simpa using SpellsRow.cons hhead
    (hoptions.append (.cons hpath (hmedia.append (.cons hsemicolon .nil))))

theorem pluginArguments_takes : pluginArguments.Takes SpellsRow := by
  refine Takes.here_bind fun c => ?_
  split
  · refine Takes.single (Takes.node (by decide) ?_)
    refine (Takes.expect _ _).bind fun left _ hleft => (Takes.balanced _).bind
      fun rest _ hrest => ?_
    exact .pure ⟨by simpa using SpellsRow.cons hleft hrest, by simp⟩
  · exact .pure .nil

theorem pluginRule_takes : pluginRule.Takes Spells := by
  refine Takes.node (by decide) ?_
  refine (Takes.expect _ _).bind fun head _ hhead => pluginArguments_takes.bind
    fun args _ hargs => ?_
  refine (Takes.take_spells _ _).bind fun path _ hpath => ?_
  refine (Takes.expect _ _).bind fun semicolon _ hsemicolon => .pure ⟨?_, by simp⟩
  simpa using SpellsRow.cons hhead (hargs.append (.cons hpath (.cons hsemicolon .nil)))

theorem rawPrelude_takes : rawPrelude.Takes SpellsRow :=
  Takes.repeatWhile (Takes.single (Takes.take_spells _ _))

theorem valuePrelude_takes : valuePrelude.Takes Spells := by
  refine value_takes.bind fun content _ hcontent => Takes.here_bind fun c => ?_
  split
  · exact .pure (by simpa using hcontent)
  · exact Takes.fail _ _

theorem atRulePrelude_takes : atRulePrelude.Takes SpellsRow := by
  refine Takes.here_bind fun c => ?_
  split
  · exact .pure .nil
  · refine valuePrelude_takes.attempt.bind fun early taken hearly => ?_
    rcases hearly with ⟨content, rfl, hcontent⟩ | ⟨rfl, rfl⟩
    · exact .pure (.cons hcontent .nil)
    · exact rawPrelude_takes

/-! ## Statements with blocks -/

section Blocks

open Recovering

variable {block : Recovering Tree} (hblock : block.Takes Keeps)

include hblock

/-- What stands behind selectors keeps at least what lies between mismatches. -/
theorem afterSelectors_takes (selectors : Tree) :
    (afterSelectors block selectors).Takes KeepsRow := by
  refine Recovering.Takes.here_bind fun c => ?_
  split
  · refine Recovering.Takes.lift_bind arguments_takes fun args _ hargs => ?_
    refine Recovering.Takes.here_bind fun c => ?_
    split
    · refine Recovering.Takes.lift_bind guard_takes fun guard _ hguard => ?_
      refine hblock.bind fun block noted _ hblock => .pure ?_
      simpa using KeepsRow.cons hargs.keeps (.cons hguard.keeps (.single hblock))
    · split
      · refine hblock.bind fun block noted _ hblock => .pure ?_
        simpa using KeepsRow.cons hargs.keeps (.single hblock)
      · refine Recovering.Takes.lift_bind (ending_takes _) fun rest _ hrest => .pure ?_
        simpa using KeepsRow.cons hargs.keeps hrest.keeps
  · split
    · refine Recovering.Takes.lift_bind (Takes.expect _ _) fun semicolon _ hsemicolon => .pure ?_
      simpa using KeepsRow.single hsemicolon.keeps
    · split
      · exact Recovering.Takes.lift_row (ending_takes _)
      · split
        · refine hblock.bind fun block noted _ hblock => .pure ?_
          simpa using KeepsRow.single hblock
        · exact Recovering.Takes.fail _ _

theorem rulesetOrMixin_takes : (rulesetOrMixin block).Takes Keeps := by
  refine Recovering.Takes.bind (P := fun noted taken ts => KeepsRow noted taken ts ∧ taken ≠ [] ∧
    ∃ list parts, ts = list :: parts ∧ ∃ s ∈ list.children, s.phrase?.isSome) ?_ ?_
  · refine Recovering.Takes.lift_bind selectorList_takes fun selectors _ hselectors => ?_
    refine (afterSelectors_takes hblock selectors).bind fun rest _ _ hrest => .pure ⟨?_, ?_, ?_⟩
    · simpa using KeepsRow.cons hselectors.1.keeps hrest
    · exact List.append_ne_nil_of_left_ne_nil hselectors.1.nonempty _
    · exact ⟨selectors, rest, rfl, hselectors.2⟩
  · rintro ts noted taken ⟨hts, htaken, hselected⟩
    refine .pure ?_
    simp only [List.append_nil]
    exact ⟨hts.leaves, hts.whole, htaken, ⟨fun _ => hselected, selectedAll_iff.mpr hts.selected⟩,
      trivial, arrangedAll_iff.mpr hts.arranged⟩

theorem mediaRule_takes : (mediaRule block).Takes Keeps := by
  refine Recovering.Takes.node (by decide) ?_
  refine Recovering.Takes.lift_bind (Takes.expect _ _) fun head _ hhead => ?_
  refine Recovering.Takes.lift_bind mediaList_takes fun queries _ hqueries => ?_
  refine hblock.bind fun block _ _ hblock => .pure ⟨?_, ?_⟩
  · simpa using KeepsRow.cons hhead.keeps (.cons hqueries.keeps (.single hblock))
  · exact List.append_ne_nil_of_left_ne_nil hhead.nonempty _

theorem generalAtRule_takes : (generalAtRule block).Takes Keeps := by
  refine Recovering.Takes.node (by decide) ?_
  refine Recovering.Takes.lift_bind (Takes.expect _ _) fun head _ hhead => ?_
  refine Recovering.Takes.lift_bind atRulePrelude_takes fun content _ hcontent => ?_
  refine Recovering.Takes.here_bind fun c => ?_
  split
  · refine Recovering.Takes.lift_bind (Takes.expect _ _) fun semicolon _ hsemicolon =>
      .pure ⟨?_, ?_⟩
    · simpa using KeepsRow.cons hhead.keeps (hcontent.keeps.append (.single hsemicolon.keeps))
    · exact List.append_ne_nil_of_left_ne_nil hhead.nonempty _
  · refine hblock.bind fun block _ _ hblock => .pure ⟨?_, ?_⟩
    · simpa using KeepsRow.cons hhead.keeps (hcontent.keeps.append (.single hblock))
    · exact List.append_ne_nil_of_left_ne_nil hhead.nonempty _

theorem atRule_takes : (atRule block).Takes Keeps := by
  have hsingle {p : Recovering Tree} (hp : p.Takes Keeps) :
      (do return [← p] : Recovering (List Tree)).Takes fun noted taken ts =>
        KeepsRow noted taken ts ∧ taken ≠ [] :=
    hp.bind fun _ _ _ h => .pure ⟨by simpa using KeepsRow.single h, by simpa using h.nonempty⟩
  refine Recovering.Takes.node (by decide) (Recovering.Takes.here_bind fun c => ?_)
  split
  · exact hsingle (Recovering.Takes.lift_tree importRule_takes)
  · exact hsingle (Recovering.Takes.lift_tree pluginRule_takes)
  · exact hsingle (mediaRule_takes hblock)
  · exact hsingle (generalAtRule_takes hblock)
  · exact Recovering.Takes.fail _ _

/-- A statement keeps of what it takes at least all between mismatches. -/
theorem statement_takes (inBlock : Bool) : (statement block inBlock).Takes Keeps := by
  refine Recovering.Takes.here_bind fun c => ?_
  split
  · exact Recovering.Takes.lift_tree assignment_takes
  · split
    · exact atRule_takes hblock
    · have hearly :
          (if inBlock && startsHere c .declaration then attempt declaration else give none).Takes
          fun taken o => (∃ t, o = some t ∧ Spells taken t) ∨ o = none ∧ taken = [] := by
        split
        · exact declaration_takes.attempt
        · exact .pure (.inr ⟨rfl, rfl⟩)
      refine Recovering.Takes.lift_bind hearly fun early taken h => ?_
      rcases h with ⟨t, rfl, ht⟩ | ⟨rfl, rfl⟩
      · exact .pure (by simpa using ht.keeps)
      · dsimp only
        split
        · exact rulesetOrMixin_takes hblock
        · exact Recovering.Takes.fail _ _

end Blocks

/-! ## Rows of statements -/

/-- Resuming behind a mismatch leaves a part of what was to come. -/
theorem resume_suffix (c : Cursor) : (resume c).rest <:+ c.rest := by
  have hfrom (ts : List Token) : ∀ depth previous, (resumeFrom depth previous ts).rest <:+ ts := by
    induction ts with
    | nil => exact fun _ _ => List.suffix_rfl
    | cons t ts ih =>
      intro depth previous
      unfold resumeFrom
      split
      · exact List.suffix_cons _ _
      · exact (ih _ _).trans (List.suffix_cons _ _)
      · exact List.suffix_rfl
      · exact List.suffix_cons _ _
      · exact (ih _ _).trans (List.suffix_cons _ _)
      · exact (ih _ _).trans (List.suffix_cons _ _)
  exact hfrom c.rest 0 c.previous

/-- A row of statements keeps of what was taken for it at least all between mismatches. -/
def Body.Keeps (tokens : List Token) (b : Body) : Prop :=
  ∃ taken, tokens = taken ++ b.next.rest ∧ KeepsRow b.noted taken b.statements

section Rows

variable {statement : Recovering Tree} (hstatement : statement.Takes Tree.Keeps)

include hstatement

/-- So does a row of statements, by induction on the bound. -/
theorem bodyWithin_keeps (inBlock : Bool) (bound : Nat) (c : Cursor) :
    (bodyWithin statement inBlock bound c).Keeps c.rest := by
  have hnil (c : Cursor) : Body.Keeps c.rest ⟨[], [], c⟩ := ⟨[], rfl, SpellsRow.nil.keeps⟩
  fun_induction bodyWithin statement inBlock bound c with
  | case1 c => exact hnil c
  | case2 bound c hrest => exact hnil c
  | case3 bound c t ts hrest ht => exact hnil c
  | case4 bound c t ts hrest ht _ body ih =>
    obtain ⟨taken, hts, hkeeps⟩ := ih
    exact ⟨t :: taken, by rw [hrest]; exact congrArg (t :: ·) hts, hkeeps.skip [] _ [t]⟩
  | case5 bound c t ts hrest ht noted tree next hfound body ih =>
    obtain ⟨more, hmore, hbody⟩ := ih
    have hc := hstatement c
    rw [hfound] at hc
    obtain ⟨taken, htaken, htree⟩ := hc
    exact ⟨taken ++ more, by rw [htaken, hmore, List.append_assoc], .cons htree hbody⟩
  | case6 bound c t ts hrest ht noted m next hfailed body ih =>
    obtain ⟨more, hmore, hbody⟩ := ih
    have hc := hstatement c
    rw [hfailed] at hc
    -- what the statement took and what was skipped behind it is lost
    obtain ⟨skipped, hskipped⟩ := (resume_suffix next).trans hc
    exact ⟨skipped ++ more, by rw [← hskipped, hmore, List.append_assoc],
      hbody.skip noted m skipped⟩

/-- Outside of blocks, a row without mismatches ends with the tokens: every statement takes one. -/
theorem bodyWithin_rest {bound : Nat} {c : Cursor} (hbound : c.rest.length ≤ bound)
    (hnoted : (bodyWithin statement false bound c).noted = []) :
    (bodyWithin statement false bound c).next.rest = [] := by
  fun_induction bodyWithin statement false bound c with
  | case1 c => exact List.length_eq_zero_iff.mp (Nat.le_zero.mp hbound)
  | case2 bound c hrest => exact hrest
  | case3 bound c t ts hrest ht hblock => contradiction
  | case4 bound c t ts hrest ht _ body ih => exact absurd hnoted (List.cons_ne_nil _ _)
  | case5 bound c t ts hrest ht noted tree next hfound body ih =>
    have hc := hstatement c
    rw [hfound] at hc
    obtain ⟨taken, htaken, htree⟩ := hc
    have hpos := List.length_pos_iff.mpr htree.nonempty
    have hlength := congrArg List.length htaken
    rw [List.length_append] at hlength
    exact ih (by omega) (List.append_eq_nil_iff.mp hnoted).2
  | case6 bound c t ts hrest ht noted m next hfailed body ih => simp at hnoted

theorem bodyTree_takes :
    (bodyTree statement).Takes fun noted taken t =>
      ∃ ts, t = .node .statements ts ∧ KeepsRow noted taken ts := by
  intro c
  obtain ⟨taken, hrest, hkeeps⟩ := bodyWithin_keeps hstatement true c.rest.length c
  exact ⟨taken, hrest, _, rfl, hkeeps⟩

end Rows

/-- A block keeps of what it takes at least all between mismatches, by induction on the bound. -/
theorem blockWithin_takes (bound : Nat) : (blockWithin bound).Takes Tree.Keeps := by
  induction bound with
  | zero =>
    refine Recovering.Takes.node (by decide) ?_
    refine Recovering.Takes.lift_bind (Takes.expect _ _) fun left _ hleft => .pure ⟨?_, ?_⟩
    · simpa using KeepsRow.single hleft.keeps
    · exact List.append_ne_nil_of_left_ne_nil hleft.nonempty _
  | succ bound ih =>
    refine Recovering.Takes.node (by decide) ?_
    refine Recovering.Takes.lift_bind (Takes.expect _ _) fun left _ hleft => ?_
    refine (bodyTree_takes (statement_takes ih true)).bind fun inner _ _ hinner => ?_
    obtain ⟨ts, rfl, hts⟩ := hinner
    refine Recovering.Takes.lift_bind (Takes.expect _ _) fun right _ hright => .pure ⟨?_, ?_⟩
    · have hinner : KeepsRow _ _ [Tree.node .statements ts] :=
        ⟨by simpa using hts.leaves, by simpa using hts.whole, by
          simpa [Selected, selectedAll_iff] using hts.selected,
          List.forall_mem_singleton.mpr ⟨trivial, arrangedAll_iff.mpr hts.arranged⟩⟩
      simpa using KeepsRow.cons hleft.keeps (hinner.append (.single hright.keeps))
    · exact List.append_ne_nil_of_left_ne_nil hleft.nonempty _

end Parser

namespace Parse

open LessCss.Tree

/-- A stylesheet keeps of its tokens at least all between mismatches. -/
theorem ofTokens_keeps (tokens : List Token) : (ofTokens tokens).Keeps tokens :=
  Parser.bodyWithin_keeps (Parser.statement_takes (Parser.blockWithin_takes _) false) false
    tokens.length ⟨none, tokens⟩

/-- A parse without mismatches goes through to the last token. -/
theorem ofTokens_rest {tokens : List Token} (h : (ofTokens tokens).noted = []) :
    (ofTokens tokens).next.rest = [] :=
  Parser.bodyWithin_rest (Parser.statement_takes (Parser.blockWithin_takes _) false)
    (Nat.le_refl _) h

/-- The leaves of the tree of a source are some of its tokens, in their order. -/
theorem leaves_sublist_tokens (source : String) :
    (ofText source).tree.leaves.Sublist (Lexing.ofText source).tokens := by
  obtain ⟨taken, htokens, hkeeps⟩ := ofTokens_keeps (Lexing.ofText source).tokens
  have htaken : taken.Sublist (Lexing.ofText source).tokens := by
    rw [htokens]
    exact List.sublist_append_left _ _
  exact hkeeps.leaves.trans htaken

/-- No token is left out where nothing was noted. -/
theorem leaves_eq_tokens {source : String} (hnoted : (ofText source).mismatches = []) :
    (ofText source).tree.leaves = (Lexing.ofText source).tokens := by
  obtain ⟨taken, htokens, hkeeps⟩ := ofTokens_keeps (Lexing.ofText source).tokens
  rw [ofTokens_rest hnoted, List.append_nil] at htokens
  exact (hkeeps.whole hnoted).trans htokens.symm

/-- **The leaves of a parse are tokens of the text, in their order, and all of them if nothing was
noted against the text.** -/
theorem leaves_ofText (source : String) :
    (ofText source).tree.leaves.Sublist (Lexing.ofText source).tokens ∧
      ((ofText source).mismatches = [] →
        (ofText source).tree.leaves = (Lexing.ofText source).tokens) :=
  ⟨leaves_sublist_tokens source, leaves_eq_tokens⟩

/-- Every rule set or mixin in a parse has a selector in front. -/
theorem selected_ofText (source : String) : ∀ t ∈ (ofText source).tree.children, t.Selected := by
  obtain ⟨_, _, hkeeps⟩ := ofTokens_keeps (Lexing.ofText source).tokens
  exact hkeeps.selected

/-- The values in a parse are put together as values are. -/
theorem arranged_ofText (source : String) : ∀ t ∈ (ofText source).tree.children, t.Arranged := by
  obtain ⟨_, _, hkeeps⟩ := ofTokens_keeps (Lexing.ofText source).tokens
  exact hkeeps.arranged

end Parse

end LessCss
