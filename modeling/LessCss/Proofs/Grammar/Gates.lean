import LessCss.Proofs.Grammar.Choices
import LessCss.Proofs.Parsing.Starting

/-!
# The grammar and the parser agree

The grammar is kept apart from the parser, and says of each phrase only what it starts with.  The
two fit together: with a token that a phrase cannot start with, or none, the parser of the phrase
fails where it is (`Parser.Procedure`), and so the tests that stand before a parser turn nothing
away that it could read (`Parser.Gate`).

Where the parser tells alternatives apart by the kind of the next token, it could as well ask the
grammar for their numbers (`Parser.alternative?`).  `Parser.agrees_with_grammar` says all of this.
-/

namespace LessCss

/-! ## Alternatives and their numbers -/

namespace Prediction

/-- The facts that the grammar of stylesheets comes to are those of the table. -/
theorem facts_language : Grammar.facts (fun p => some (Grammar.stylesheet p)) = languageFacts := by
  have hfacts := Grammar.repeatStep_eq iterate_step (32 * 40) 0 (.tabulate fun _ => .none)
      (by omega)
  rwa [Function.iterate_zero_apply] at hfacts

/-- Of the alternatives of a phrase the first one is chosen that may start with the kind. -/
theorem choose?_stylesheet (p : Phrase) (k : Kind) : stylesheet.choose? p k =
    ((Grammar.stylesheet p).map fun a => (StartFacts.ofSymbols languageFacts.get a).first).findIdx?
      (·.contains k) := by
  rw [choose?, stylesheet, choices_ofGrammar, Choice.index?, Choice.ofStarts, facts_language]
  rfl

theorem choose?_atRule (k : Kind) : stylesheet.choose? .atRule k =
    match k with
    | .atImport => some 0
    | .atPlugin => some 1
    | .atMedia => some 2
    | .atName => some 3
    | _ => none := by
  rw [choose?_stylesheet]
  cases k <;> rfl

theorem choose?_selectorPart (k : Kind) : stylesheet.choose? .selectorPart k =
    match k with
    | .classOrId => some 0
    | .hash => some 1
    | .leftBracket => some 2
    | .colon => some 3
    | .ampersand => some 4
    | .dot => some 5
    | .atBraces => some 6
    | _ => none := by
  rw [choose?_stylesheet]
  cases k <;> rfl

theorem choose?_mediaQuery (k : Kind) : stylesheet.choose? .mediaQuery k =
    match k with
    | .ident => some 0
    | .and | .or => some 1
    | .leftParen => some 2
    | _ => none := by
  rw [choose?_stylesheet]
  cases k <;> rfl

end Prediction

namespace Parser

/-! ## The procedures of the parser -/

/-- The parsers of phrases without statements in them.  Each bound is as good as another here. -/
inductive Reads : Phrase → Parser Tree → Prop
  | selectorList : Reads .selectorList selectorList
  | extendClause : Reads .extendClause extendClause
  | selector (inExtend : Bool) : Reads .selector (selector inExtend)
  | selectorWithin (inExtend : Bool) (bound : Nat) : Reads .selector (selectorWithin inExtend bound)
  | simpleSelector : Reads .simpleSelector simpleSelector
  | elementName : Reads .elementName (take .simpleSelector (first .elementName))
  | selectorPart : Reads .selectorPart selectorPart
  | pseudo : Reads .pseudo pseudo
  | attributeSelector : Reads .attributeSelector attributeSelector
  | combinator : Reads .combinator combinator
  | declaration : Reads .declaration declaration
  | name : Reads .name name
  | assignment : Reads .assignment assignment
  | value : Reads .value value
  | valueOver {inner : Parser Tree} (h : Reads .operand inner) : Reads .value (valueOver inner)
  | expression : Reads .expression expression
  | expressionOver {inner : Parser Tree} (h : Reads .operand inner) :
    Reads .expression (expressionOver inner)
  | sumOver {inner : Parser Tree} (h : Reads .operand inner) : Reads .sum (sumOver inner)
  | productOver {inner : Parser Tree} (h : Reads .operand inner) :
    Reads .product (productOver inner)
  | operandWithin (bound : Nat) : Reads .operand (operandWithin bound)
  | parens : Reads .parens parens
  | parensOver {inner : Parser Tree} (h : Reads .operand inner) : Reads .parens (parensOver inner)
  | arguments : Reads .arguments arguments
  | argument : Reads .argument argument
  | guard : Reads .guard guard
  | importRule : Reads .importRule importRule
  | pluginRule : Reads .pluginRule pluginRule
  | pluginArguments : Reads .pluginArguments (node .pluginArguments do
      let left ← expect .pluginArguments .leftParen
      return left :: (← balanced .pluginArguments))
  | mediaList : Reads .mediaList mediaList
  | mediaQuery : Reads .mediaQuery mediaQuery

/-- The parsers of phrases that are never empty, those with statements in them included. -/
inductive Procedure : Phrase → Recovering Tree → Prop
  | plain {phrase : Phrase} {p : Parser Tree} (h : Reads phrase p) : Procedure phrase (.ofParser p)
  | block (bound : Nat) : Procedure .block (blockWithin bound)
  | rulesetOrMixin (block : Recovering Tree) : Procedure .rulesetOrMixin (rulesetOrMixin block)
  | atRule (block : Recovering Tree) : Procedure .atRule (atRule block)
  | mediaRule (block : Recovering Tree) : Procedure .mediaRule (mediaRule block)
  | generalAtRule (block : Recovering Tree) : Procedure .generalAtRule (generalAtRule block)

/-- The tests that stand before a procedure, by the phrase of which they ask whether the next token
can start it. -/
inductive Gate : Phrase → Recovering Tree → Prop
  /-- The sort of a statement is looked for in this order. -/
  | atRule (block : Recovering Tree) : Gate .atRule (atRule block)
  | declaration : Gate .declaration (.ofParser declaration)
  | rulesetOrMixin (block : Recovering Tree) : Gate .rulesetOrMixin (rulesetOrMixin block)
  /-- The head of a simple selector; before its further parts there is the test for parts again. -/
  | elementName : Gate .elementName (.ofParser (take .simpleSelector (first .elementName)))
  | selectorPart : Gate .selectorPart (.ofParser selectorPart)
  /-- What follows a simple selector. -/
  | combinator : Gate .combinator (.ofParser combinator)
  | selector (inExtend : Bool) (bound : Nat) :
    Gate .selector (.ofParser (selectorWithin inExtend bound))
  /-- A further sum in a row of sums is looked for where an operand can start. -/
  | sum {inner : Parser Tree} (h : Reads .operand inner) : Gate .operand (.ofParser (sumOver inner))
  /-- A minus sign is taken for a part of the operand behind it only if one can start there. -/
  | operand (bound : Nat) : Gate .operand (.ofParser (operandWithin bound))
  /-- The media queries of an import may be left out. -/
  | mediaList : Gate .mediaList (.ofParser mediaList)
  /-- A media query goes on with words and parentheses. -/
  | mediaWord : Gate .mediaQuery (.ofParser (take .mediaQuery (.ofList [.ident, .and, .or])))
  | mediaParens : Gate .mediaQuery (.ofParser parens)

/-- What a parser without statements reads starts as the grammar says. -/
theorem Reads.startsWith {phrase : Phrase} {p : Parser Tree} (h : Reads phrase p) :
    p.StartsWith (first phrase) := by
  induction h with
  | selectorList => exact selectorList_startsWith
  | extendClause => exact extendClause_startsWith
  | selector inExtend => exact selector_startsWith inExtend
  | selectorWithin inExtend bound => exact selectorWithin_startsWith inExtend bound
  | simpleSelector => exact simpleSelector_startsWith
  | elementName => exact .take .simpleSelector _
  | selectorPart => exact selectorPart_startsWith
  | pseudo => exact pseudo_startsWith
  | attributeSelector => exact attributeSelector_startsWith
  | combinator => exact combinator_startsWith
  | declaration => exact declaration_startsWith
  | name => exact name_startsWith
  | assignment => exact assignment_startsWith
  | value => exact value_startsWith
  | valueOver _ ih => exact valueOver_startsWith ih
  | expression => exact expression_startsWith
  | expressionOver _ ih => exact expressionOver_startsWith ih
  | sumOver _ ih => exact sumOver_startsWith ih
  | productOver _ ih => exact productOver_startsWith ih
  | operandWithin bound => exact operandWithin_startsWith bound
  | parens => exact parens_startsWith
  | parensOver => exact parensOver_startsWith
  | arguments => exact arguments_startsWith
  | argument => exact argument_startsWith
  | guard => exact guard_startsWith
  | importRule => exact importRule_startsWith
  | pluginRule => exact pluginRule_startsWith
  | pluginArguments => exact .node (.bind (.expect .pluginArguments .leftParen) _) _
  | mediaList => exact mediaList_startsWith
  | mediaQuery => exact mediaQuery_startsWith

/-- What a procedure reads starts as the grammar says. -/
theorem Procedure.startsWith {phrase : Phrase} {p : Recovering Tree} (h : Procedure phrase p) :
    p.StartsWith (first phrase) := by
  cases h with
  | plain h => exact .ofParser h.startsWith
  | block bound => exact blockWithin_startsWith bound
  | rulesetOrMixin block => exact rulesetOrMixin_startsWith block
  | atRule block => exact atRule_startsWith block
  | mediaRule block => exact mediaRule_startsWith block
  | generalAtRule block => exact generalAtRule_startsWith block

/-- Only the row of statements has no procedure among these. -/
theorem exists_procedure_iff {phrase : Phrase} : (∃ p, Procedure phrase p) ↔
    phrase ≠ .statements := by
  constructor
  · rintro ⟨p, h⟩ rfl
    cases h with
    | plain h => cases h
  · intro h
    have hread {p : Parser Tree} (h : Reads phrase p) : ∃ p, Procedure phrase p := ⟨_, .plain h⟩
    have hoperand := Reads.operandWithin 0
    cases phrase with
    | statements => exact absurd rfl h
    | rulesetOrMixin => exact ⟨_, .rulesetOrMixin (blockWithin 0)⟩
    | block => exact ⟨_, .block 0⟩
    | atRule => exact ⟨_, .atRule (blockWithin 0)⟩
    | mediaRule => exact ⟨_, .mediaRule (blockWithin 0)⟩
    | generalAtRule => exact ⟨_, .generalAtRule (blockWithin 0)⟩
    | sum => exact hread (.sumOver hoperand)
    | product => exact hread (.productOver hoperand)
    | selector => exact hread (.selector false)
    | operand => exact hread hoperand
    | _ => exact hread (by constructor)

/-! ## Choices by number -/

/-- The number of the alternative of a phrase that the grammar chooses at the next token. -/
def alternative? (phrase : Phrase) (c : Cursor) : Option Nat :=
  c.kind?.bind (Prediction.stylesheet.choose? phrase)

/-- An at-rule, by the numbers of the alternatives. -/
def atRuleByNumber (block : Recovering Tree) : Recovering Tree := recoveringNode .atRule do
  match alternative? .atRule (← (here : Parser Cursor)) with
  | some 0 => return [← (importRule : Parser Tree)]
  | some 1 => return [← (pluginRule : Parser Tree)]
  | some 2 => return [← mediaRule block]
  | some 3 => return [← generalAtRule block]
  | _ => (fail .atRule (first .atRule) : Parser (List Tree))

/-- A part of a simple selector, by the numbers of the alternatives. -/
def selectorPartByNumber : Parser Tree := node .selectorPart do
  let c ← here
  match alternative? .selectorPart c, c.kind? with
  | some 2, _ => return [← attributeSelector]
  | some 3, _ => return [← pseudo]
  | some 4, _ =>
    let parent ← expect .selectorPart .ampersand
    let c ← here
    let tail ← if c.isTight then accept .selectorPart .ident else pure []
    return parent :: tail
  | some 5, _ =>
    let dot ← expect .selectorPart .dot
    if (← here).isTight then return [dot, ← name]
    else fail .selectorPart (first .name)
  | some _, some k => return [← expect .selectorPart k]
  | _, _ => fail .selectorPart (first .selectorPart)

/-- A media query, by the numbers of the alternatives: parts are read as long as the grammar chooses
any. -/
def mediaQueryByNumber : Parser Tree := node .mediaQuery do
  let parts ← repeatWhile (fun c => (alternative? .mediaQuery c).isSome) do
    match alternative? .mediaQuery (← here) with
    | some 0 => return [← expect .mediaQuery .ident]
    | some 1 => return [← take .mediaQuery (.ofList Category.logical.members)]
    | _ => return [← parens]
  if parts.isEmpty then fail .mediaQuery (first .mediaQuery) else return parts

section Taking

variable {phrase : Phrase} {wanted : KindSet} {kind : Kind} {previous : Option Token}
  {start stop : Nat} {text : String}
  {ts : List Token}

/-- Taking the next token, where it is wanted. -/
theorem take_of_contains (h : wanted.contains kind = true) :
    (do return [← take phrase wanted] : Parser (List Tree))
      ⟨previous, ⟨kind, start, stop, text⟩ :: ts⟩ =
      .found [.leaf ⟨kind, start, stop, text⟩] ⟨some ⟨kind, start, stop, text⟩, ts⟩ := by
  have htaken : take phrase wanted ⟨previous, ⟨kind, start, stop, text⟩ :: ts⟩ =
      .found (.leaf ⟨kind, start, stop, text⟩) ⟨some ⟨kind, start, stop, text⟩, ts⟩ := if_pos h
  exact bind_of_found htaken

/-- Taking the next token, where it is not wanted. -/
theorem take_of_not_contains (h : wanted.contains kind = false) :
    (do return [← take phrase wanted] : Parser (List Tree))
      ⟨previous, ⟨kind, start, stop, text⟩ :: ts⟩ =
      fail phrase wanted ⟨previous, ⟨kind, start, stop, text⟩ :: ts⟩ := by
  have hnot : Cursor.isAtAny ⟨previous, ⟨kind, start, stop, text⟩ :: ts⟩ wanted = false := h
  exact bind_of_failed (take_eq_fail hnot)

end Taking

/-- An at-rule is read by the alternative the grammar chooses. -/
theorem atRule_eq_byNumber (block : Recovering Tree) : atRule block = atRuleByNumber block := by
  refine congrArg (recoveringNode .atRule) (congrArg (Recovering.andThen _) (funext fun c => ?_))
  unfold alternative?
  cases c.kind? with
  | none => rfl
  | some k =>
    rw [Option.bind_some, Prediction.choose?_atRule]
    cases k <;> rfl

/-- A part of a selector is read by the alternative the grammar chooses. -/
theorem selectorPart_eq_byNumber : selectorPart = selectorPartByNumber := by
  have hchoose := funext Prediction.choose?_selectorPart
  refine congrArg (node .selectorPart) (funext fun c => ?_)
  unfold alternative?
  rw [hchoose]
  obtain ⟨previous, _ | ⟨⟨kind, start, stop, text⟩, ts⟩⟩ := c
  · rfl
  · cases kind with
    | leftBracket | colon | ampersand | dot => rfl
    | classOrId | hash | atBraces =>
      exact (take_of_contains (by decide)).trans (take_of_contains (by simp)).symm
    | _ => exact take_of_not_contains (by decide)

/-- Only where the loop goes on does it matter what an item is. -/
theorem repeatWhile_congr {more : Cursor → Bool} {item item' : Parser (List Tree)}
    (h : ∀ c, more c = true → item c = item' c) :
    repeatWhile more item = repeatWhile more item' := by
  have hwithin (bound : Nat) : repeatWithin more item bound = repeatWithin more item' bound := by
    induction bound with
    | zero => rfl
    | succ bound ih =>
      funext c
      change (if more c then item.andThen _ else give [] : Parser (List Tree)) c =
        (if more c then item'.andThen _ else give [] : Parser (List Tree)) c
      split
      · rename_i hmore
        rw [andThen, andThen, h c hmore, ih]
      · rfl
  exact funext fun c => congrFun (hwithin c.rest.length) c

/-- The parts of a media query are read by the alternatives the grammar chooses. -/
theorem mediaQuery_eq_byNumber : mediaQuery = mediaQueryByNumber := by
  have hchoose := funext Prediction.choose?_mediaQuery
  have hmore : (startsHere · .mediaQuery) = fun c => (alternative? .mediaQuery c).isSome := by
    funext c
    unfold alternative?
    rw [hchoose]
    unfold startsHere Cursor.isAtAny
    cases c.kind? with
    | none => rfl
    | some k => cases k <;> rfl
  refine congrArg (node .mediaQuery) ?_
  rw [← hmore]
  refine congrArg (andThen · _) (repeatWhile_congr fun c hc => ?_)
  unfold alternative?
  rw [hchoose]
  obtain ⟨previous, _ | ⟨⟨kind, start, stop, text⟩, ts⟩⟩ := c
  · cases hc
  · have hstarts : (first .mediaQuery).contains kind = true := hc
    cases kind with
    | leftParen => rfl
    | ident | and | or =>
      exact (take_of_contains (by decide)).trans (take_of_contains (by decide)).symm
    | _ => exact absurd hstarts (by decide)

/-! ## Agreement -/

/-- Behind a gate a phrase is read that starts as the grammar says. -/
theorem Gate.startsWith {phrase : Phrase} {p : Recovering Tree} (h : Gate phrase p) :
    p.StartsWith (first phrase) := by
  cases h with
  | atRule block => exact atRule_startsWith block
  | declaration => exact .ofParser declaration_startsWith
  | rulesetOrMixin block => exact rulesetOrMixin_startsWith block
  | elementName => exact .ofParser (.take .simpleSelector _)
  | selectorPart => exact .ofParser selectorPart_startsWith
  | combinator => exact .ofParser combinator_startsWith
  | selector inExtend bound => exact .ofParser (selectorWithin_startsWith inExtend bound)
  | sum h => exact .ofParser (sumOver_startsWith h.startsWith)
  | operand bound => exact .ofParser (operandWithin_startsWith bound)
  | mediaList => exact .ofParser mediaList_startsWith
  | mediaWord => exact .ofParser ((StartsWith.take .mediaQuery _).mono (by decide))
  | mediaParens => exact .ofParser (parens_startsWith.mono (by decide))

/-- **The grammar and the parser agree.**  The phrases that are never empty are those that have
procedures.  Where the next token is of no kind with which the grammar starts a phrase, or there is
none, each procedure of the phrase fails, takes nothing and notes nothing; so what it finds starts
with such a kind, and no gate before a procedure turns anything away that the procedure would
accept.  Alternatives that the parser tells apart by the next token are those that the grammar
numbers. -/
theorem agrees_with_grammar :
    (∀ phrase, (∃ p, Procedure phrase p) ↔
      (Prediction.stylesheet.facts.get phrase).nullable = false) ∧
      (∀ phrase p, Procedure phrase p → ∀ c : Cursor,
        (∀ k, c.kind? = some k → (Prediction.stylesheet.first phrase).contains k = false) →
          ∃ m, p c = ⟨[], .failed m c⟩) ∧
      (∀ phrase p, Procedure phrase p → ∀ c noted tree next, p c = ⟨noted, .found tree next⟩ →
        ∃ k, c.kind? = some k ∧ (Prediction.stylesheet.first phrase).contains k = true) ∧
      (∀ phrase p, Gate phrase p → ∀ c noted tree next, p c = ⟨noted, .found tree next⟩ →
        startsHere c phrase = true) ∧
      (∀ block, atRule block = atRuleByNumber block) ∧ selectorPart = selectorPartByNumber ∧
        mediaQuery = mediaQueryByNumber := by
  refine ⟨fun phrase => ?_, fun phrase p h c hc => ?_,
    fun phrase p h c noted tree next hfound => ?_,
    fun phrase p h c noted tree next hfound => ?_, atRule_eq_byNumber, selectorPart_eq_byNumber,
    mediaQuery_eq_byNumber⟩
  · rw [exists_procedure_iff, Prediction.stylesheet, Prediction.ofGrammar,
      Prediction.facts_language, Prediction.languageFacts, Phrase.Table.get_tabulate]
    exact beq_eq_false_iff_ne.symm
  · refine h.startsWith c (Bool.eq_false_iff.mpr fun hstarts => ?_)
    obtain ⟨k, hk, hfirst⟩ := Cursor.isAtAny_iff.mp hstarts
    have hnot := hc k hk
    rw [Prediction.first_stylesheet] at hnot
    exact Bool.eq_false_iff.mp hnot hfirst
  · rw [Prediction.first_stylesheet]
    exact Cursor.isAtAny_iff.mp (h.startsWith.isAtAny_of_found hfound)
  · exact h.startsWith.isAtAny_of_found hfound

end Parser

end LessCss
