import LessCss.Proofs.Parsing.Echoing
import LessCss.Proofs.Starts

/-!
# Where phrases start

A phrase starts with a token of one of the kinds that are listed for it, and its parser fails on the
spot where the next token is of another kind or no token is left: nothing is taken then, and nothing
noted (`Parser.StartsWith`, `Recovering.StartsWith`).  What a parser does first decides about this,
and so there is one rule for each way to begin, and the claim about a phrase follows from that about
the phrase it begins with.

Two phrases begin with something that may be left out: an argument with its name, and a media query
with any number of parts.  Where the phrase cannot start, that is left out, and what comes next
fails on the spot (`Parser.StartsWith.bind_of_found`).
-/

namespace LessCss

/-- A kind in a set is in every set that the first one adds nothing to. -/
theorem KindSet.contains_of_union_eq {s s' : KindSet} (h : s.union s' = s') {k : Kind}
    (hk : s.contains k = true) :
    s'.contains k = true := by
  rw [← h, contains_union, hk, Bool.true_or]

namespace Cursor

variable {c : Cursor} {s s' : KindSet}

theorem isAtAny_iff : c.isAtAny s = true ↔ ∃ k, c.kind? = some k ∧ s.contains k = true := by
  unfold isAtAny
  cases c.kind? <;> simp

theorem isAtAny_eq_false_of_union_eq (h : s.union s' = s') (hc : c.isAtAny s' = false) :
    c.isAtAny s = false := by
  refine Bool.eq_false_iff.mpr fun hs => Bool.eq_false_iff.mp hc ?_
  obtain ⟨k, hk, hks⟩ := isAtAny_iff.mp hs
  exact isAtAny_iff.mpr ⟨k, hk, KindSet.contains_of_union_eq h hks⟩

end Cursor

namespace Parser

variable {α β : Type}

/-! ## Parsers that fail on the spot -/

/-- Where no wanted kind is next, taking a token fails. -/
theorem take_eq_fail {phrase : Phrase} {wanted : KindSet} {c : Cursor}
    (h : c.isAtAny wanted = false) :
    take phrase wanted c = fail phrase wanted c := by
  obtain ⟨previous, _ | ⟨t, ts⟩⟩ := c
  · rfl
  · exact if_neg (Bool.eq_false_iff.mp h)

/-- Unless the next token is of a kind in `s`, a parser fails where it is. -/
def StartsWith (p : Parser α) (s : KindSet) : Prop :=
  ∀ c : Cursor, c.isAtAny s = false → ∃ m, p c = .failed m c

namespace StartsWith

variable {p : Parser α} {s s' : KindSet}

/-- A parser that starts with some kinds starts with more. -/
theorem mono (hp : p.StartsWith s) (h : s.union s' = s') : p.StartsWith s' :=
  fun c hc => hp c (Cursor.isAtAny_eq_false_of_union_eq h hc)

theorem fail (phrase : Phrase) (wanted : KindSet) :
    (Parser.fail phrase wanted : Parser α).StartsWith s :=
  fun _ _ => ⟨_, rfl⟩

theorem take (phrase : Phrase) (s : KindSet) : (Parser.take phrase s).StartsWith s :=
  fun _ hc => ⟨_, take_eq_fail hc⟩

/-- Expecting a kind starts with this kind. -/
theorem expect (phrase : Phrase) (k : Kind) : (Parser.expect phrase k).StartsWith (.ofList [k]) :=
  take phrase _

/-- What comes first decides. -/
theorem bind (hp : p.StartsWith s) (f : α → Parser β) : (p >>= f).StartsWith s := by
  intro c hc
  obtain ⟨m, hm⟩ := hp c hc
  exact ⟨m, bind_of_failed hm⟩

/-- To look where one is takes nothing. -/
theorem here_bind {f : Cursor → Parser β} (hf : ∀ c, (f c).StartsWith s) :
    (Parser.here >>= f).StartsWith s :=
  fun c hc => hf c c hc

/-- What comes first may take nothing where the rest cannot start. -/
theorem bind_of_found {f : α → Parser β} (h : ∀ c : Cursor, c.isAtAny s = false →
    ∃ a, p c = .found a c ∧ (f a).StartsWith s) : (p >>= f).StartsWith s := by
  intro c hc
  obtain ⟨a, hp, hf⟩ := h c hc
  rw [Parser.bind_of_found hp]
  exact hf c hc

/-- A phrase starts with what its parts start with. -/
theorem node {p : Parser (List Tree)} (hp : p.StartsWith s) (phrase : Phrase) :
    (Parser.node phrase p).StartsWith s :=
  hp.bind _

end StartsWith

/-! ## Selectors -/

theorem name_startsWith : name.StartsWith (first .name) := .node (.bind (.take .name _) _) _

theorem pseudo_startsWith : pseudo.StartsWith (first .pseudo) :=
  .node (.bind (.expect .pseudo .colon) _) _

theorem attributeSelector_startsWith : attributeSelector.StartsWith (first .attributeSelector) :=
  .node (.bind (.expect .attributeSelector .leftBracket) _) _

theorem selectorPart_startsWith : selectorPart.StartsWith (first .selectorPart) := by
  refine .node (.here_bind fun c => ?_) _
  split
  · exact (attributeSelector_startsWith.bind _).mono (by decide)
  · exact (pseudo_startsWith.bind _).mono (by decide)
  · exact ((StartsWith.expect .selectorPart .ampersand).bind _).mono (by decide)
  · exact ((StartsWith.expect .selectorPart .dot).bind _).mono (by decide)
  · exact (StartsWith.take .selectorPart _).bind _

theorem simpleSelector_startsWith : simpleSelector.StartsWith (first .simpleSelector) := by
  refine .node (.here_bind fun c => ?_) _
  split
  · exact ((StartsWith.take .simpleSelector _).bind _).mono (by decide)
  · split
    · exact (selectorPart_startsWith.bind _).mono (by decide)
    · exact (StartsWith.fail .simpleSelector _).bind _

theorem combinator_startsWith : combinator.StartsWith (first .combinator) :=
  .node (.bind (.take .combinator _) _) _

theorem selectorWithin_startsWith (inExtend : Bool) (bound : Nat) :
    (selectorWithin inExtend bound).StartsWith (first .selector) := by
  cases bound with
  | zero => exact .node (simpleSelector_startsWith.bind _) _
  | succ bound => exact .node (simpleSelector_startsWith.bind _) _

theorem selector_startsWith (inExtend : Bool) : (selector inExtend).StartsWith (first .selector) :=
  fun c => selectorWithin_startsWith inExtend c.rest.length c

theorem extendClause_startsWith : extendClause.StartsWith (first .extendClause) :=
  .node (.bind (.expect .extendClause .extend) _) _

theorem selectorList_startsWith : selectorList.StartsWith (first .selectorList) :=
  .node (.bind (.bind (selector_startsWith false) _) _) _

/-! ## Values -/

section Values

variable {inner : Parser Tree}

/-- A product starts as an operand does. -/
theorem productOver_startsWith (h : inner.StartsWith (first .operand)) :
    (productOver inner).StartsWith (first .product) := .node (h.bind _) _

theorem sumOver_startsWith (h : inner.StartsWith (first .operand)) :
    (sumOver inner).StartsWith (first .sum) :=
  .node ((productOver_startsWith h).bind _) _

theorem expressionOver_startsWith (h : inner.StartsWith (first .operand)) :
    (expressionOver inner).StartsWith (first .expression) := .node ((sumOver_startsWith h).bind _) _

theorem valueOver_startsWith (h : inner.StartsWith (first .operand)) :
    (valueOver inner).StartsWith (first .value) :=
  .node ((expressionOver_startsWith h).bind _) _

theorem parensOver_startsWith : (parensOver inner).StartsWith (first .parens) :=
  .node (.bind (.expect .parens .leftParen) _) _

theorem operandParts_startsWith : (operandParts inner).StartsWith (first .operand) := by
  refine .here_bind fun c => ?_
  split
  · exact ((StartsWith.expect .operand .minus).bind _).mono (by decide)
  · exact ((StartsWith.expect .operand .tilde).bind _).mono (by decide)
  · exact ((StartsWith.expect .operand .function).bind _).mono (by decide)
  · exact (parensOver_startsWith.bind _).mono (by decide)
  · exact (StartsWith.take .operand _).bind _

/-- An operand starts as the grammar says, with any bound. -/
theorem operandWithin_startsWith (bound : Nat) :
    (operandWithin bound).StartsWith (first .operand) := by
  cases bound with
  | zero => exact .fail .operand _
  | succ bound => exact .node operandParts_startsWith _

end Values

/-- Whatever the number of tokens left is, a parser whose bound it is starts alike. -/
theorem StartsWith.bounded {p : Nat → Parser Tree} {s : KindSet}
    (h : ∀ bound, (p bound).StartsWith s) :
    StartsWith (fun c => p c.rest.length c) s := fun c => h c.rest.length c

theorem expression_startsWith : expression.StartsWith (first .expression) :=
  .bounded fun bound => expressionOver_startsWith (operandWithin_startsWith bound)

theorem value_startsWith : value.StartsWith (first .value) :=
  .bounded fun bound => valueOver_startsWith (operandWithin_startsWith bound)

theorem parens_startsWith : parens.StartsWith (first .parens) :=
  .bounded fun _ => parensOver_startsWith

theorem argument_startsWith : argument.StartsWith (first .argument) := by
  refine .node (.bind_of_found fun c hc => ⟨[], ?_, expression_startsWith.bind _⟩) _
  have hname : c.isAt .atName = false := by
    rw [← c.isAtAny_ofList]
    exact Cursor.isAtAny_eq_false_of_union_eq (by decide) hc
  change (if c.isAt .atName && _ then _ else give [] : Parser (List Tree)) c = _
  rw [hname]
  rfl

theorem arguments_startsWith : arguments.StartsWith (first .arguments) :=
  .node (.bind (.expect .arguments .leftParen) _) _

theorem guard_startsWith : guard.StartsWith (first .guard) :=
  .node (.bind (.expect .guard .when) _) _

theorem mediaQuery_startsWith : mediaQuery.StartsWith (first .mediaQuery) :=
  .node (.bind_of_found fun _ hc => ⟨[], repeatWhile_of_not hc _, .fail .mediaQuery _⟩) _

theorem mediaList_startsWith : mediaList.StartsWith (first .mediaList) :=
  .node (mediaQuery_startsWith.bind _) _

/-! ## Statements -/

theorem declaration_startsWith : declaration.StartsWith (first .declaration) :=
  .node (name_startsWith.bind _) _

theorem assignment_startsWith : assignment.StartsWith (first .assignment) :=
  .node (.bind (.expect .assignment .atName) _) _

theorem importRule_startsWith : importRule.StartsWith (first .importRule) :=
  .node (.bind (.expect .importRule .atImport) _) _

theorem pluginRule_startsWith : pluginRule.StartsWith (first .pluginRule) :=
  .node (.bind (.expect .pluginRule .atPlugin) _) _

end Parser

namespace Recovering

variable {α β : Type}

/-- Unless the next token is of a kind in `s`, a parser fails where it is, and notes nothing. -/
def StartsWith (p : Recovering α) (s : KindSet) : Prop :=
  ∀ c : Cursor, c.isAtAny s = false → ∃ m, p c = ⟨[], .failed m c⟩

namespace StartsWith

variable {s s' : KindSet}

/-- A parser starts with the same kinds when it may note mismatches. -/
theorem ofParser {p : Parser α} (hp : p.StartsWith s) : (Recovering.ofParser p).StartsWith s := by
  intro c hc
  obtain ⟨m, hm⟩ := hp c hc
  exact ⟨m, congrArg (Recovered.mk []) hm⟩

theorem mono {p : Recovering α} (hp : p.StartsWith s) (h : s.union s' = s') : p.StartsWith s' :=
  fun c hc => hp c (Cursor.isAtAny_eq_false_of_union_eq h hc)

/-- One recovering parser behind another starts with what the first starts with. -/
theorem bind {p : Recovering α} (hp : p.StartsWith s) (f : α → Recovering β) :
    (p >>= f).StartsWith s := by
  intro c hc
  obtain ⟨m, hm⟩ := hp c hc
  exact ⟨m, by rw [bind_apply, hm]⟩

/-- A step that notes nothing. -/
theorem lift_bind {p : Parser α} (hp : p.StartsWith s) (f : α → Recovering β) :
    ((p : Recovering α) >>= f).StartsWith s := (ofParser hp).bind f

theorem here_bind {f : Cursor → Recovering β} (hf : ∀ c, (f c).StartsWith s) :
    (((Parser.here : Parser Cursor) : Recovering Cursor) >>= f).StartsWith s := by
  intro c hc
  obtain ⟨m, hm⟩ := hf c c hc
  exact ⟨m, by rw [bind_apply]; simp [lift_apply, Parser.here, hm]⟩

theorem node {p : Recovering (List Tree)} (hp : p.StartsWith s) (phrase : Phrase) :
    (Parser.recoveringNode phrase p).StartsWith s := hp.bind _

/-- Where something is found, the next token is of one of the kinds. -/
theorem isAtAny_of_found {p : Recovering α} (hp : p.StartsWith s) {c next : Cursor}
    {noted : List Mismatch} {a : α} (h : p c = ⟨noted, .found a next⟩) : c.isAtAny s = true := by
  by_contra hc
  obtain ⟨m, hm⟩ := hp c (Bool.eq_false_iff.mpr hc)
  rw [hm] at h
  cases h

end StartsWith

end Recovering

namespace Parser

open Recovering

variable (block : Recovering Tree)

/-- A block starts with a brace, with any bound. -/
theorem blockWithin_startsWith (bound : Nat) : (blockWithin bound).StartsWith (first .block) := by
  cases bound with
  | zero => exact .node (.lift_bind (.expect .block .leftBrace) _) _
  | succ bound => exact .node (.lift_bind (.expect .block .leftBrace) _) _

theorem rulesetOrMixin_startsWith : (rulesetOrMixin block).StartsWith (first .rulesetOrMixin) :=
  .node (.lift_bind selectorList_startsWith _) _

theorem mediaRule_startsWith : (mediaRule block).StartsWith (first .mediaRule) :=
  .node (.lift_bind (.expect .mediaRule .atMedia) _) _

theorem generalAtRule_startsWith : (generalAtRule block).StartsWith (first .generalAtRule) :=
  .node (.lift_bind (.expect .generalAtRule .atName) _) _

theorem atRule_startsWith : (atRule block).StartsWith (first .atRule) := by
  refine .node (.here_bind fun c => ?_) _
  split
  · exact (Recovering.StartsWith.lift_bind importRule_startsWith _).mono (by decide)
  · exact (Recovering.StartsWith.lift_bind pluginRule_startsWith _).mono (by decide)
  · exact ((mediaRule_startsWith block).bind _).mono (by decide)
  · exact ((generalAtRule_startsWith block).bind _).mono (by decide)
  · exact .ofParser (.fail .atRule _)

end Parser

end LessCss
