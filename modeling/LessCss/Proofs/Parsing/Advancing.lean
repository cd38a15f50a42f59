import LessCss.Proofs.Parsing.Braces

/-!
# Parsers go forward

A parser stops at the place where it starts or behind it, whether it finds something or fails, and a
mismatch is about the token at which the parser stopped (`Parser.Advances`).  This is so of the
single steps and passes to everything that is put together from them.  The one exception, a phrase
that is only tried, forgets its mismatch and goes back to the very place at which it started.

Inside of statements there are further mismatches, those from which parsing recovered.  They lie
between the two ends of the statement, each behind those before it (`Noted`).
-/

namespace LessCss

/-! ## Places in order -/

namespace Cursor

/-- From the place `c` one comes to the place `d` by taking tokens. -/
def Before (c d : Cursor) : Prop :=
  ∃ taken, c.rest = taken ++ d.rest ∧ d.previous = taken.getLast?.or c.previous

namespace Before

variable {c d e : Cursor}

theorem refl (c : Cursor) : c.Before c := ⟨[], rfl, rfl⟩

/-- From a place one comes on from places that one comes to. -/
theorem trans (h : c.Before d) (h' : d.Before e) : c.Before e := by
  obtain ⟨taken, hrest, hprevious⟩ := h
  obtain ⟨more, hmore, hprevious'⟩ := h'
  refine ⟨taken ++ more, by rw [hrest, hmore, List.append_assoc], ?_⟩
  rw [hprevious', hprevious, List.getLast?_append, Option.or_assoc]

/-- By taking the next token. -/
theorem step {t : Token} {ts : List Token} (h : c.rest = t :: ts) : c.Before ⟨some t, ts⟩ :=
  ⟨[t], h, rfl⟩

/-- What is to come at a later place is a suffix of what was to come before. -/
theorem suffix (h : c.Before d) : d.rest <:+ c.rest := by
  obtain ⟨taken, hrest, _⟩ := h
  exact ⟨taken, hrest.symm⟩

/-- Two places behind the same one at which as many tokens are left are the same. -/
theorem eq_of_rest {d' : Cursor} (h : c.Before d) (h' : c.Before d') (hrest : d'.rest = d.rest) :
    d' = d := by
  obtain ⟨taken, htaken, hprevious⟩ := h
  obtain ⟨taken', htaken', hprevious'⟩ := h'
  obtain ⟨previous, rest⟩ := d
  obtain ⟨previous', rest'⟩ := d'
  obtain rfl : rest' = rest := hrest
  have hsame : taken' = taken := List.append_cancel_right (htaken'.symm.trans htaken)
  simp only at hprevious hprevious'
  rw [hprevious', hprevious, hsame]

end Before

end Cursor

/-- The place where a parser stopped. -/
def Outcome.stop {α : Type} : Outcome α → Cursor
  | .found _ next => next
  | .failed _ next => next

/-- A mismatch is about the token that comes next. -/
def Mismatch.IsAt (m : Mismatch) (c : Cursor) : Prop := m.found = c.next?

/-- A parser that fails says what it found where it stopped. -/
def Outcome.Honest {α : Type} : Outcome α → Prop
  | .found .. => True
  | .failed m next => m.IsAt next

namespace Parser

variable {α β : Type}

/-- A parser stops behind the place where it starts, and fails at the token where it stops. -/
structure AdvancesFrom (c : Cursor) (o : Outcome α) : Prop where
  stop : c.Before o.stop
  honest : o.Honest

/-- A parser that goes forward from every place. -/
def Advances (p : Parser α) : Prop := ∀ c, AdvancesFrom c (p c)

theorem AdvancesFrom.before {c d : Cursor} {o : Outcome α} (h : c.Before d)
    (ho : AdvancesFrom d o) :
    AdvancesFrom c o := ⟨h.trans ho.stop, ho.honest⟩

namespace Advances

variable {p q : Parser α}

theorem pure (a : α) : (Pure.pure a : Parser α).Advances := fun c => ⟨.refl c, trivial⟩

/-- A parser that fails stands still and says what it found. -/
theorem fail (phrase : Phrase) (wanted : KindSet) :
    (Parser.fail phrase wanted : Parser α).Advances :=
  fun c => ⟨.refl c, rfl⟩

theorem here : Parser.here.Advances := fun c => ⟨.refl c, trivial⟩

/-- One parser behind another goes forward if both do. -/
theorem bind {f : α → Parser β} (hp : p.Advances) (hf : ∀ a, (f a).Advances) :
    (p >>= f).Advances := by
  intro c
  have hc := hp c
  cases h : p c with
  | found a next =>
    rw [h] at hc
    rw [bind_of_found h]
    exact (hf a next).before hc.stop
  | failed m next =>
    rw [h] at hc
    rw [bind_of_failed h]
    exact ⟨hc.stop, hc.honest⟩

/-- Looking at the place does not move it. -/
theorem here_bind {f : Cursor → Parser β} (hf : ∀ c, (f c).Advances) :
    (Parser.here >>= f).Advances :=
  here.bind hf

/-- A choice between two parsers, with the same steps behind both. -/
theorem ite_bind {b : Bool} {f : α → Parser β} (hp : p.Advances) (hq : q.Advances)
    (hf : ∀ a, (f a).Advances) : (if b then p >>= f else q >>= f).Advances := by
  cases b with
  | true => exact hp.bind hf
  | false => exact hq.bind hf

/-- A phrase that is only tried: if it fails, its failure is forgotten. -/
theorem attempt (hp : p.Advances) : (Parser.attempt p).Advances := by
  intro c
  have hc := hp c
  unfold Parser.attempt
  cases h : p c with
  | found a next =>
    rw [h] at hc
    exact ⟨hc.stop, trivial⟩
  | failed m next => exact ⟨.refl c, trivial⟩

/-- A parser that is given the number of tokens left. -/
theorem sized {p : Nat → Parser α} (hp : ∀ n, (p n).Advances) :
    Advances (fun c => p c.rest.length c) := fun c => hp c.rest.length c

/-- Taking a token goes forward by this token, or stands still. -/
theorem take (phrase : Phrase) (wanted : KindSet) : (Parser.take phrase wanted).Advances := by
  intro c
  unfold Parser.take
  cases hrest : c.rest with
  | nil => exact ⟨.refl c, by simp [Outcome.Honest, Mismatch.IsAt, Cursor.next?, hrest]⟩
  | cons t ts =>
    dsimp only
    split
    · exact ⟨.step hrest, trivial⟩
    · exact ⟨.refl c, by simp [Outcome.Honest, Mismatch.IsAt, Cursor.next?, hrest]⟩

theorem expect (phrase : Phrase) (k : Kind) : (Parser.expect phrase k).Advances := take phrase _

section Rows

variable {p q : Parser Tree} {ps : Parser (List Tree)}

theorem single (hp : p.Advances) : (do return [← p] : Parser (List Tree)).Advances :=
  hp.bind fun _ => .pure _

theorem pair (hp : p.Advances) (hq : q.Advances) :
    (do return [← p, ← q] : Parser (List Tree)).Advances :=
  hp.bind fun _ => hq.bind fun _ => .pure _

/-- A phrase that may be left out, with the same steps behind it in both cases. -/
theorem optional_bind {b : Bool} {f : List Tree → Parser β} (hp : p.Advances)
    (hf : ∀ ts, (f ts).Advances) :
    (if b then (do let t ← p; let ts ← Pure.pure [t]; f ts)
      else (do let ts ← Pure.pure []; f ts)).Advances := by
  cases b with
  | true => exact hp.bind fun t => hf [t]
  | false => exact hf []

theorem accept (phrase : Phrase) (k : Kind) : (Parser.accept phrase k).Advances := by
  refine .here_bind fun c => ?_
  split
  · exact .single (.expect phrase k)
  · exact .pure _

/-- Putting a phrase around what is found moves nothing. -/
theorem node {phrase : Phrase} (hps : ps.Advances) : (Parser.node phrase ps).Advances :=
  hps.bind fun _ => .pure _

/-- A repetition goes forward if each round does. -/
theorem repeatWhile {more : Cursor → Bool} (hps : ps.Advances) :
    (Parser.repeatWhile more ps).Advances := by
  refine .sized fun n => ?_
  induction n with
  | zero => exact .pure _
  | succ n ih =>
    refine .here_bind fun c => ?_
    split
    · exact hps.bind fun ts => ih.bind fun us => .pure _
    · exact .pure _

/-- Parentheses that are kept as they are. -/
theorem balanced (phrase : Phrase) : (Parser.balanced phrase).Advances := by
  have hfrom (ts : List Token) : ∀ depth previous,
      AdvancesFrom ⟨previous, ts⟩ (takeBalanced phrase depth previous ts) := by
    induction ts with
    | nil => exact fun _ _ => ⟨.refl _, rfl⟩
    | cons t ts ih =>
      intro depth previous
      have hrest (depth : Nat) := (ih depth (some t)).before (.step (c := ⟨previous, t :: ts⟩) rfl)
      unfold takeBalanced
      dsimp only
      split
      case h_1 | h_2 | h_3 =>
        have hinner := hrest (depth + 1)
        cases h : takeBalanced phrase (depth + 1) (some t) ts <;> rw [h] at hinner
        case found => exact ⟨hinner.stop, trivial⟩
        case failed => exact ⟨hinner.stop, hinner.honest⟩
      case h_4 =>
        split
        · exact ⟨.step rfl, trivial⟩
        · next depth =>
          have hinner := hrest depth
          cases h : takeBalanced phrase depth (some t) ts <;> rw [h] at hinner
          case found => exact ⟨hinner.stop, trivial⟩
          case failed => exact ⟨hinner.stop, hinner.honest⟩
      case h_5 | h_6 | h_7 => exact ⟨.refl _, rfl⟩
      case h_8 =>
        have hinner := hrest depth
        cases h : takeBalanced phrase depth (some t) ts <;> rw [h] at hinner
        case found => exact ⟨hinner.stop, trivial⟩
        case failed => exact ⟨hinner.stop, hinner.honest⟩
  exact fun c => hfrom c.rest 0 c.previous

end Rows

end Advances

/-! ## Selectors -/

theorem name_advances : name.Advances :=
  .node ((Advances.take _ _).bind fun _ => (Advances.repeatWhile (.single (.take _ _))).bind
    fun _ => .pure _)

theorem pseudo_advances : pseudo.Advances := by
  refine .node ((Advances.expect _ _).bind fun colon => .here_bind fun c => ?_)
  refine .ite_bind (.accept _ _) (.pure _) fun second => .here_bind fun c => ?_
  split
  · exact .fail _ _
  · exact (Advances.take _ _).bind fun word => .ite_bind (.balanced _) (.pure _)
      fun inner => .pure _

theorem attributeComparison_advances : attributeComparison.Advances := by
  refine .here_bind fun c => ?_
  split
  · refine (Advances.expect _ _).bind fun sign => .here_bind fun c => ?_
    split
    · exact (Advances.take _ _).bind fun value => .pure _
    · exact .fail _ _
  · exact .pure _

theorem attributeSelector_advances : attributeSelector.Advances := by
  refine .node ((Advances.expect _ _).bind fun left => (Advances.expect _ _).bind fun name => ?_)
  refine attributeComparison_advances.bind fun test => (Advances.accept _ _).bind fun modifier => ?_
  exact (Advances.expect _ _).bind fun right => .pure _

theorem selectorPart_advances : selectorPart.Advances := by
  refine .node (.here_bind fun c => ?_)
  split
  · exact .single attributeSelector_advances
  · exact .single pseudo_advances
  · refine (Advances.expect _ _).bind fun parent => .here_bind fun c => ?_
    exact .ite_bind (.accept _ _) (.pure _) fun tail => .pure _
  · refine (Advances.expect _ _).bind fun dot => .here_bind fun c => ?_
    split
    · exact name_advances.bind fun name => .pure _
    · exact .fail _ _
  · exact .single (.take _ _)

theorem simpleSelector_advances : simpleSelector.Advances := by
  refine .node (.here_bind fun c => ?_)
  have hmore (head : Tree) : (do
      let more ← repeatWhile (fun c => c.isTight && startsHere c .selectorPart) do
          return [← selectorPart]
      return head :: more : Parser (List Tree)).Advances :=
    (Advances.repeatWhile (.single selectorPart_advances)).bind fun _ => .pure _
  dsimp only
  split
  · exact (Advances.take _ _).bind hmore
  · exact .ite_bind selectorPart_advances (.fail _ _) hmore

theorem combinator_advances : combinator.Advances := .node (.single (.take _ _))

theorem selectorWithin_advances (inExtend : Bool) (bound : Nat) :
    (selectorWithin inExtend bound).Advances := by
  induction bound with
  | zero => exact .node (.single simpleSelector_advances)
  | succ bound ih =>
    refine .node (simpleSelector_advances.bind fun head => .here_bind fun c => ?_)
    split
    · exact combinator_advances.bind fun sign => ih.bind fun rest => .pure _
    · split
      · exact ih.bind fun rest => .pure _
      · exact .pure _

/-- A selector goes forward from every place, however long it is. -/
theorem selector_advances (inExtend : Bool) : (selector inExtend).Advances :=
  .sized (selectorWithin_advances inExtend)

theorem extendClause_advances : extendClause.Advances := by
  refine .node ((Advances.expect _ _).bind fun head => (selector_advances true).bind
    fun target => ?_)
  refine (Advances.repeatWhile (.pair (.expect _ _) (selector_advances true))).bind fun more => ?_
  refine .here_bind fun c => .ite_bind (.accept _ _) (.pure _) fun all => ?_
  exact (Advances.expect _ _).bind fun right => .pure _

theorem selectorWithExtend_advances : selectorWithExtend.Advances := by
  refine (selector_advances false).bind fun head => .here_bind fun c => ?_
  split
  · exact extendClause_advances.bind fun clause => .pure _
  · exact .pure _

theorem selectorList_advances : selectorList.Advances := by
  refine .node (selectorWithExtend_advances.bind fun head => ?_)
  refine (Advances.repeatWhile ?_).bind fun more => .pure _
  exact (Advances.expect _ _).bind fun comma => selectorWithExtend_advances.bind fun ts => .pure _

/-! ## Values -/

section Values

variable {inner : Parser Tree} (hinner : inner.Advances)

include hinner

theorem productOver_advances : (productOver inner).Advances :=
  .node (hinner.bind fun _ => (Advances.repeatWhile (.pair (.take _ _) hinner)).bind
    fun _ => .pure _)

theorem sumOver_advances : (sumOver inner).Advances := by
  have hproduct := productOver_advances hinner
  exact .node (hproduct.bind fun _ => (Advances.repeatWhile (.pair (.take _ _) hproduct)).bind
    fun _ => .pure _)

theorem expressionOver_advances : (expressionOver inner).Advances := by
  have hsum := sumOver_advances hinner
  exact .node (hsum.bind fun _ => (Advances.repeatWhile (.single hsum)).bind fun _ => .pure _)

theorem valueOver_advances : (valueOver inner).Advances := by
  have hrow := expressionOver_advances hinner
  exact .node (hrow.bind fun _ => (Advances.repeatWhile (.pair (.expect _ _) hrow)).bind
    fun _ => .pure _)

omit hinner in
theorem featureName_advances : featureName.Advances := by
  refine .here_bind fun c => ?_
  split
  · exact .pair (.expect _ _) (.expect _ _)
  · exact .pure _

theorem parensOver_advances : (parensOver inner).Advances := by
  refine .node ((Advances.expect _ _).bind fun left => featureName_advances.bind fun feature => ?_)
  exact (valueOver_advances hinner).bind fun value => (Advances.expect _ _).bind
    fun right => .pure _

theorem operandParts_advances : (operandParts inner).Advances := by
  refine .here_bind fun c => ?_
  split
  · refine (Advances.expect _ _).bind fun minus => .here_bind fun c => ?_
    split
    · exact hinner.bind fun operand => .pure _
    · exact .fail _ _
  · refine (Advances.expect _ _).bind fun tilde => .here_bind fun c => ?_
    split
    · exact (Advances.expect _ _).bind fun content => .pure _
    · exact .fail _ _
  · refine (Advances.expect _ _).bind fun head => .here_bind fun c => ?_
    split
    · exact (Advances.expect _ _).bind fun right => .pure _
    · exact (valueOver_advances hinner).bind fun value => (Advances.expect _ _).bind
        fun right => .pure _
  · exact .single (parensOver_advances hinner)
  · exact .single (.take _ _)

end Values

/-- An operand goes forward from every place, however deep parentheses are nested. -/
theorem operandWithin_advances (bound : Nat) : (operandWithin bound).Advances := by
  induction bound with
  | zero => exact .fail _ _
  | succ bound ih => exact .node (operandParts_advances ih)

theorem expression_advances : expression.Advances :=
  .sized fun n => expressionOver_advances (operandWithin_advances n)

theorem value_advances : value.Advances :=
  .sized fun n => valueOver_advances (operandWithin_advances n)

theorem parens_advances : parens.Advances :=
  .sized fun n => parensOver_advances (operandWithin_advances n)

/-! ## Arguments, guards and media queries -/

theorem argument_advances : argument.Advances := by
  have hname : argumentName.Advances := by
    refine .here_bind fun c => ?_
    split
    · exact .pair (.expect _ _) (.expect _ _)
    · exact .pure _
  exact .node (hname.bind fun name => expression_advances.bind fun content => .pure _)

theorem arguments_advances : arguments.Advances := by
  refine .node ((Advances.expect _ _).bind fun left => .here_bind fun c => ?_)
  split
  · exact (Advances.expect _ _).bind fun right => .pure _
  · refine argument_advances.bind fun head => ?_
    refine (Advances.repeatWhile (.pair (.take _ _) argument_advances)).bind fun more => ?_
    exact (Advances.expect _ _).bind fun right => .pure _

theorem condition_advances : condition.Advances := by
  refine .here_bind fun c => .optional_bind (.expect _ _) fun negation => ?_
  exact (Advances.expect _ _).bind fun left => (Advances.balanced _).bind fun rest => .pure _

theorem guard_advances : guard.Advances := by
  refine .node ((Advances.expect _ _).bind fun head => condition_advances.bind fun first => ?_)
  refine (Advances.repeatWhile ?_).bind fun more => .pure _
  exact (Advances.take _ _).bind fun joiner => condition_advances.bind fun ts => .pure _

theorem mediaQuery_advances : mediaQuery.Advances := by
  refine .node ((Advances.repeatWhile (.here_bind fun c => ?_)).bind fun parts => ?_)
  · split
    · exact .single parens_advances
    · exact .single (.take _ _)
  · split
    · exact .fail _ _
    · exact .pure _

theorem mediaList_advances : mediaList.Advances := by
  refine .node (mediaQuery_advances.bind fun head => ?_)
  exact (Advances.repeatWhile (.pair (.expect _ _) mediaQuery_advances)).bind fun more => .pure _

/-! ## Statements without blocks -/

theorem ending_advances (phrase : Phrase) : (ending phrase).Advances := by
  refine (Advances.accept _ _).bind fun important => .here_bind fun c => ?_
  split
  · exact .pure _
  · exact (Advances.expect _ _).bind fun semicolon => .pure _

theorem declaration_advances : declaration.Advances := by
  refine .node (name_advances.bind fun property => (Advances.expect _ _).bind fun colon => ?_)
  exact value_advances.bind fun content => (ending_advances _).bind fun rest => .pure _

theorem assignment_advances : assignment.Advances := by
  refine .node ((Advances.expect _ _).bind fun head => (Advances.expect _ _).bind fun colon => ?_)
  exact value_advances.bind fun content => (ending_advances _).bind fun rest => .pure _

theorem importOptions_advances : importOptions.Advances := by
  refine .here_bind fun c => ?_
  split
  · refine (Advances.expect _ _).bind fun left => (Advances.expect _ _).bind fun option => ?_
    refine (Advances.repeatWhile (.pair (.expect _ _) (.expect _ _))).bind fun more => ?_
    exact (Advances.expect _ _).bind fun right => .pure _
  · exact .pure _

theorem importRule_advances : importRule.Advances := by
  refine .node ((Advances.expect _ _).bind fun head => importOptions_advances.bind
    fun options => ?_)
  refine (Advances.take _ _).bind fun path => .here_bind fun c => ?_
  exact .optional_bind mediaList_advances fun media => (Advances.expect _ _).bind
    fun semicolon => .pure _

theorem pluginArguments_advances : pluginArguments.Advances := by
  refine .here_bind fun c => ?_
  split
  · exact .single
      (.node ((Advances.expect _ _).bind fun left => (Advances.balanced _).bind
        fun rest => .pure _))
  · exact .pure _

theorem pluginRule_advances : pluginRule.Advances := by
  refine .node ((Advances.expect _ _).bind fun head => pluginArguments_advances.bind fun args => ?_)
  exact (Advances.take _ _).bind fun path => (Advances.expect _ _).bind fun semicolon => .pure _

theorem valuePrelude_advances : valuePrelude.Advances := by
  refine value_advances.bind fun content => .here_bind fun c => ?_
  split
  · exact .pure _
  · exact .fail _ _

theorem rawPrelude_advances : rawPrelude.Advances := .repeatWhile (.single (.take _ _))

theorem atRulePrelude_advances : atRulePrelude.Advances := by
  refine .here_bind fun c => ?_
  split
  · exact .pure _
  · refine valuePrelude_advances.attempt.bind fun early => ?_
    cases early with
    | some content => exact .pure _
    | none => exact rawPrelude_advances

end Parser

/-! ## Mismatches that were noted -/

/-- On the way from one place to another some mismatches were noted, each about the token at some
place, and none before the place of an earlier one. -/
inductive Noted : Cursor → List Mismatch → Cursor → Prop
  | nil {c d : Cursor} (h : c.Before d) : Noted c [] d
  | cons {c d e : Cursor} {m : Mismatch} {ms : List Mismatch} (h : c.Before d) (hm : m.IsAt d)
    (hrest : Noted d ms e) : Noted c (m :: ms) e

namespace Noted

variable {c d e : Cursor} {ms ns : List Mismatch}

/-- Behind what was noted one is at a later place. -/
theorem before (h : Noted c ms d) : c.Before d := by
  induction h with
  | nil h => exact h
  | cons h _ _ ih => exact h.trans ih

/-- Nothing was noted on the way to the start. -/
theorem from_before (h : c.Before d) (hms : Noted d ms e) : Noted c ms e := by
  cases hms with
  | nil h' => exact .nil (h.trans h')
  | cons h' hm hrest => exact .cons (h.trans h') hm hrest

/-- What was noted on the way to a place and on the way from it was noted on the whole way. -/
theorem append (hms : Noted c ms d) (hns : Noted d ns e) : Noted c (ms ++ ns) e := by
  induction hms with
  | nil h => exact hns.from_before h
  | cons h hm _ ih => exact .cons h hm (ih hns)

end Noted

namespace Recovering

variable {α β : Type}

/-- What was noted lies between the place where the parser starts and the place where it stops, and
it fails at the token there. -/
structure AdvancesFrom (c : Cursor) (r : Recovered α) : Prop where
  noted : Noted c r.noted r.outcome.stop
  honest : r.outcome.Honest

/-- A recovering parser that goes forward from every place. -/
def Advances (p : Recovering α) : Prop := ∀ c, AdvancesFrom c (p c)

namespace Advances

theorem pure (a : α) : (Pure.pure a : Recovering α).Advances := fun c => ⟨.nil (.refl c), trivial⟩

/-- A parser that goes forward does so when it may note mismatches as well. -/
theorem lift {p : Parser α} (hp : p.Advances) : (ofParser p).Advances :=
  fun c => ⟨.nil (hp c).stop, (hp c).honest⟩

theorem fail (phrase : Phrase) (wanted : KindSet) :
    (ofParser (Parser.fail phrase wanted : Parser α)).Advances :=
  lift (.fail phrase wanted)

/-- One recovering parser behind another goes forward if both do. -/
theorem bind {p : Recovering α} {f : α → Recovering β} (hp : p.Advances)
    (hf : ∀ a, (f a).Advances) :
    (p >>= f).Advances := by
  intro c
  have hc := hp c
  rw [bind_apply]
  rcases h : p c with ⟨noted, _ | _⟩
  case found a next =>
    rw [h] at hc
    exact ⟨hc.noted.append (hf a next).noted, (hf a next).honest⟩
  case failed m next =>
    rw [h] at hc
    exact ⟨hc.noted, hc.honest⟩

/-- A step without statements inside. -/
theorem lift_bind {p : Parser α} {f : α → Recovering β} (hp : p.Advances)
    (hf : ∀ a, (f a).Advances) :
    ((p : Recovering α) >>= f).Advances := (lift hp).bind hf

theorem here_bind {f : Cursor → Recovering β} (hf : ∀ c, (f c).Advances) :
    (((Parser.here : Parser Cursor) : Recovering Cursor) >>= f).Advances := lift_bind .here hf

theorem single {p : Recovering Tree} (hp : p.Advances) :
    (do return [← p] : Recovering (List Tree)).Advances :=
  hp.bind fun _ => .pure _

theorem node {phrase : Phrase} {p : Recovering (List Tree)} (hp : p.Advances) :
    (Parser.recoveringNode phrase p).Advances := hp.bind fun _ => .pure _

end Advances

end Recovering

namespace Parser

open Recovering

/-! ## Statements -/

section Blocks

variable {block : Recovering Tree} (hblock : block.Advances)

include hblock

theorem afterSelectors_advances (selectors : Tree) : (afterSelectors block selectors).Advances := by
  refine .here_bind fun c => ?_
  split
  · refine .lift_bind arguments_advances fun args => .here_bind fun c => ?_
    split
    · exact .lift_bind guard_advances fun condition => hblock.bind fun inner => .pure _
    · split
      · exact hblock.bind fun inner => .pure _
      · exact .lift_bind (ending_advances _) fun rest => .pure _
  · split
    · exact .single (.lift (.expect _ _))
    · split
      · exact .lift (ending_advances _)
      · split
        · exact .single hblock
        · exact .fail _ _

theorem rulesetOrMixin_advances : (rulesetOrMixin block).Advances := by
  refine .node (.lift_bind selectorList_advances fun selectors => ?_)
  exact (afterSelectors_advances hblock selectors).bind fun rest => .pure _

theorem mediaRule_advances : (mediaRule block).Advances := by
  refine .node (.lift_bind (.expect _ _) fun head => .lift_bind mediaList_advances
    fun queries => ?_)
  exact hblock.bind fun inner => .pure _

theorem generalAtRule_advances : (generalAtRule block).Advances := by
  refine .node (.lift_bind (.expect _ _) fun head => .lift_bind atRulePrelude_advances
    fun content => ?_)
  refine .here_bind fun c => ?_
  split
  · exact .lift_bind (.expect _ _) fun semicolon => .pure _
  · exact hblock.bind fun inner => .pure _

theorem atRule_advances : (atRule block).Advances := by
  refine .node (.here_bind fun c => ?_)
  split
  · exact .single (.lift importRule_advances)
  · exact .single (.lift pluginRule_advances)
  · exact .single (mediaRule_advances hblock)
  · exact .single (generalAtRule_advances hblock)
  · exact .fail _ _

/-- A statement goes forward from every place, if the blocks in it do. -/
theorem statement_advances (inBlock : Bool) : (statement block inBlock).Advances := by
  refine .here_bind fun c => ?_
  split
  · exact .lift assignment_advances
  · split
    · exact atRule_advances hblock
    · have hearly :
          (if inBlock && startsHere c .declaration then attempt declaration
            else give none).Advances := by
        split
        · exact declaration_advances.attempt
        · exact .pure _
      refine .lift_bind hearly fun early => ?_
      cases early with
      | some tree => exact .pure _
      | none =>
        dsimp only
        split
        · exact rulesetOrMixin_advances hblock
        · exact .fail _ _

end Blocks

/-! ## Rows of statements -/

/-- Resuming behind a mismatch goes forward. -/
theorem resume_before (c : Cursor) : c.Before (resume c) := by
  have hfrom (ts : List Token) : ∀ depth previous,
      Cursor.Before ⟨previous, ts⟩ (resumeFrom depth previous ts) := by
    induction ts with
    | nil => exact fun _ _ => .refl _
    | cons t ts ih =>
      intro depth previous
      have hstep : Cursor.Before ⟨previous, t :: ts⟩ ⟨some t, ts⟩ := .step rfl
      unfold resumeFrom
      split
      · exact hstep
      · exact hstep.trans (ih _ _)
      · exact .refl _
      · exact hstep
      · exact hstep.trans (ih _ _)
      · exact hstep.trans (ih _ _)
  exact hfrom c.rest 0 c.previous

/-- What is noted in a row of statements is noted in the order of the row.  What a statement notes
before it fails lies before the place where it fails, and recovery goes on behind that place. -/
theorem bodyWithin_advances {statement : Recovering Tree} (hstatement : statement.Advances)
    (inBlock : Bool) (rounds : Nat) (c : Cursor) :
    Noted c (bodyWithin statement inBlock rounds c).noted
      (bodyWithin statement inBlock rounds c).next := by
  fun_induction bodyWithin statement inBlock rounds c with
  | case1 c => exact .nil (.refl c)
  | case2 rounds c hrest => exact .nil (.refl c)
  | case3 rounds c t ts hrest ht hblock => exact .nil (.refl c)
  | case4 rounds c t ts hrest ht hblock body ih =>
    exact .cons (.refl c) (by simp [Mismatch.IsAt, Cursor.next?, hrest])
      (ih.from_before (.step hrest))
  | case5 rounds c t ts hrest ht noted tree next hfound body ih =>
    have hnoted := (hstatement c).noted
    rw [hfound] at hnoted
    exact hnoted.append ih
  | case6 rounds c t ts hrest ht noted m next hfailed body ih =>
    have hc := hstatement c
    rw [hfailed] at hc
    exact hc.noted.append (.cons (.refl next) hc.honest (ih.from_before (resume_before next)))

theorem bodyTree_advances {statement : Recovering Tree} (hstatement : statement.Advances) :
    (bodyTree statement).Advances :=
  fun c => ⟨bodyWithin_advances hstatement true c.rest.length c, trivial⟩

/-- A block goes forward from every place, by induction on the bound. -/
theorem blockWithin_advances (bound : Nat) : (blockWithin bound).Advances := by
  induction bound with
  | zero => exact .node (.single (.lift (.expect _ _)))
  | succ bound ih =>
    refine .node (.lift_bind (.expect _ _) fun left => ?_)
    refine (bodyTree_advances (statement_advances ih true)).bind fun inner => ?_
    exact .lift_bind (.expect _ _) fun right => .pure _

end Parser

end LessCss
