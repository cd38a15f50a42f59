import LessCss.Proofs.Parsing.Echoing
import LessCss.Proofs.Parsing.Statements

/-!
# The selectors in front of blocks

In a text without complaints every rule set has a list of selectors in front, and each of these is a
chain of simple selectors (`Tree.Headed`), every one of which was found by the parser of simple
selectors at some place (`Tree.IsSimple`).  This is followed through all blocks, but not through
values and arguments, as no rule set is read off these.

A simple selector starts with a token with which selectors may start, and behind a function in it
there is a closing parenthesis.
-/

namespace LessCss

/-- Behind every function among some tokens a parenthesis is closed. -/
def Closed (tokens : List Token) : Prop :=
  ∀ pre t post, tokens = pre ++ t :: post → t.kind = .function → ∃ u ∈ post, u.kind = .rightParen

namespace Closed

variable {ts us : List Token}

theorem nil : Closed [] := fun _ _ _ h => by simp at h

theorem single {t : Token} (h : t.kind ≠ .function) : Closed [t] := by
  intro pre u post heq hu
  rcases List.singleton_eq_append_iff.mp heq with ⟨-, hrest⟩ | ⟨-, hrest⟩
  · cases hrest
    exact absurd hu h
  · cases hrest

/-- Tokens that close their functions do so with others behind them that do. -/
theorem append (h : Closed ts) (h' : Closed us) : Closed (ts ++ us) := by
  intro pre t post heq ht
  rcases List.append_eq_append_iff.mp heq with ⟨a, rfl, hus⟩ | ⟨a, rfl, hpost⟩
  · exact h' a t post hus ht
  · cases a with
    | nil => exact h' [] t post (by simpa using hpost.symm) ht
    | cons u a =>
      obtain ⟨rfl, rfl⟩ := List.cons.inj hpost
      obtain ⟨v, hv, hkind⟩ := h pre t a rfl ht
      exact ⟨v, List.mem_append_left _ hv, hkind⟩

/-- A parenthesis at the end closes all functions before it. -/
theorem of_last {t : Token} (h : t.kind = .rightParen) : Closed (ts ++ [t]) := by
  intro pre u post heq hu
  refine ⟨t, ?_, h⟩
  rcases List.append_eq_append_iff.mp heq with ⟨a, rfl, hrest⟩ | ⟨a, rfl, hrest⟩
  · rcases List.singleton_eq_append_iff.mp hrest with ⟨-, hrest⟩ | ⟨-, hrest⟩
    · cases hrest
      rw [h] at hu
      cases hu
    · cases hrest
  · cases a with
    | nil =>
      cases hrest
      rw [h] at hu
      cases hu
    | cons v a =>
      obtain ⟨rfl, rfl⟩ := List.cons.inj hrest
      simp

end Closed

namespace Parser

variable {α β : Type}

/-- A parser that closes what it opens. -/
abbrev Closes (p : Parser α) : Prop := p.Takes fun taken _ => Closed taken

namespace Closes

theorem pure (a : α) : (Pure.pure a : Parser α).Closes := Takes.pure .nil

/-- One parser behind another closes what it opens if both do. -/
theorem bind {p : Parser α} {f : α → Parser β} (hp : p.Closes) (hf : ∀ a, (f a).Closes) :
    (p >>= f).Closes :=
  Takes.bind hp fun a _ h => Takes.mono (hf a) fun _ _ h' => h.append h'

theorem ite_bind {b : Bool} {p q : Parser α} {f : α → Parser β} (hp : p.Closes) (hq : q.Closes)
    (hf : ∀ a, (f a).Closes) : (if b then p >>= f else q >>= f).Closes := by
  cases b with
  | true => exact bind hp hf
  | false => exact bind hq hf

/-- A token that is no function opens nothing. -/
theorem take (phrase : Phrase) {wanted : KindSet} (h : wanted.contains .function = false) :
    (Parser.take phrase wanted).Closes := by
  refine (Takes.take phrase wanted).mono fun taken t ⟨x, htaken, _, hx⟩ => ?_
  rw [htaken]
  refine .single fun hk => ?_
  rw [hk, h] at hx
  cases hx

theorem expect (phrase : Phrase) {k : Kind} (h : k ≠ .function) : (Parser.expect phrase k).Closes :=
  take phrase (by simpa using h.symm)

theorem node {phrase : Phrase} {p : Parser (List Tree)} (hp : p.Closes) :
    (Parser.node phrase p).Closes :=
  bind hp fun _ => pure _

theorem single {p : Parser Tree} (hp : p.Closes) : (do return [← p] : Parser (List Tree)).Closes :=
  bind hp fun _ => pure _

theorem accept (phrase : Phrase) {k : Kind} (h : k ≠ .function) :
    (Parser.accept phrase k).Closes := by
  refine Takes.here_bind fun c => ?_
  split
  · exact single (expect phrase h)
  · exact pure _

/-- A repetition closes what it opens if each round does. -/
theorem repeatWhile {more : Cursor → Bool} {item : Parser (List Tree)} (hitem : item.Closes) :
    (Parser.repeatWhile more item).Closes := by
  have hwithin (n : Nat) : (repeatWithin more item n).Closes := by
    induction n with
    | zero => exact pure _
    | succ n ih =>
      refine Takes.here_bind fun c => ?_
      split
      · exact bind hitem fun ts => bind ih fun us => pure _
      · exact pure _
  exact fun c => hwithin c.rest.length c

/-- What is kept through a closing parenthesis. -/
theorem balanced (phrase : Phrase) : (Parser.balanced phrase).Takes fun taken _ =>
    ∃ ts t, taken = ts ++ [t] ∧ t.kind = .rightParen := by
  have hfrom (tokens : List Token) : ∀ depth previous ts next,
      takeBalanced phrase depth previous tokens = .found ts next →
      ∃ us t, tokens = us ++ [t] ++ next.rest ∧ t.kind = .rightParen := by
    induction tokens with
    | nil =>
      intro depth previous ts next h
      cases h
    | cons t us ih =>
      intro depth previous ts next h
      rcases takeBalanced_found h with ⟨-, hk, -, rfl⟩ | ⟨depth', inner, -, hinner, -⟩
      · exact ⟨[], t, rfl, hk⟩
      · obtain ⟨vs, u, hus, hu⟩ := ih depth' _ inner next hinner
        exact ⟨t :: vs, u, by rw [hus]; rfl, hu⟩
  intro c
  have hc := Takes.balanced phrase c
  cases h : Parser.balanced phrase c with
  | failed m next =>
    rw [h] at hc
    exact hc
  | found ts next =>
    obtain ⟨us, t, hrest, ht⟩ := hfrom c.rest 0 c.previous ts next h
    exact ⟨us ++ [t], hrest, us, t, rfl, ht⟩

end Closes

/-! ## Simple selectors -/

theorem name_closes : name.Closes := by
  refine .node (Closes.bind (.take _ (by decide)) fun head => ?_)
  exact Closes.bind (.repeatWhile (.single (.take _ (by decide)))) fun more => .pure _

/-- A word, with arguments in parentheses if it is a function. -/
theorem word_closes (c : Cursor) (f : Tree → List Tree → List Tree) :
    ((do
      let word ← take .pseudo (.ofList [.ident, .function])
      let inner ← if c.isAt .function then balanced .pseudo else pure []
      return f word inner : Parser (List Tree)) c).Within c.rest fun taken _ => Closed taken := by
  cases hat : c.isAt .function with
  | true =>
    refine Takes.bind (P := fun _ _ => True) ((Takes.take _ _).mono fun _ _ _ => trivial)
      (fun word taken _ => ?_) c
    refine Takes.bind (Closes.balanced _) fun inner more ⟨ts, t, hmore, ht⟩ => Takes.pure ?_
    rw [hmore, List.append_nil, ← List.append_assoc]
    exact .of_last ht
  | false =>
    have htakes :
        (do return f (← take .pseudo (.ofList [.ident, .function])) [] : Parser (List Tree)).Takes
        fun taken _ => ∃ x, taken = [x] :=
      Takes.bind (Takes.take _ _) fun word taken ⟨x, htaken, _, _⟩ =>
        Takes.pure ⟨x, by rw [htaken, List.append_nil]⟩
    have hc := htakes c
    change Outcome.Within c.rest _
      ((do return f (← take .pseudo (.ofList [.ident, .function])) []) c)
    generalize (do return f (← take .pseudo (.ofList [.ident, .function])) [] : Parser (List Tree))
      c = o at hc ⊢
    cases o with
    | failed m next => exact hc
    | found ts next =>
      obtain ⟨_, hrest, x, rfl⟩ := hc
      refine ⟨[x], hrest, .single fun hk => ?_⟩
      simp [Cursor.isAt, Cursor.kind?, Cursor.next?, hrest, hk] at hat

theorem pseudo_closes : pseudo.Closes := by
  refine .node (Closes.bind (.expect _ (by decide)) fun colon => Takes.here_bind fun c => ?_)
  refine Closes.ite_bind (.accept _ (by decide)) (.pure _) fun second c => ?_
  change Outcome.Within c.rest _ ((if !c.isTight then _ else _ : Parser (List Tree)) c)
  split
  · exact List.suffix_rfl
  · exact word_closes c fun word inner => colon :: second ++ word :: inner

theorem attributeSelector_closes : attributeSelector.Closes := by
  have htest : attributeComparison.Closes := by
    refine Takes.here_bind fun c => ?_
    split
    · refine Closes.bind (.expect _ (by decide)) fun sign => Takes.here_bind fun c => ?_
      split
      · exact Closes.bind (.take _ (by decide)) fun value => .pure _
      · exact Takes.fail _ _
    · exact Closes.pure _
  refine .node (Closes.bind (.expect _ (by decide)) fun left => ?_)
  refine Closes.bind (.expect _ (by decide)) fun name => Closes.bind htest fun test => ?_
  refine Closes.bind (.accept _ (by decide)) fun modifier => ?_
  exact Closes.bind (.expect _ (by decide)) fun right => .pure _

theorem selectorPart_closes : selectorPart.Closes := by
  refine .node (Takes.here_bind fun c => ?_)
  split
  · exact Closes.single attributeSelector_closes
  · exact Closes.single pseudo_closes
  · refine Closes.bind (.expect _ (by decide)) fun parent => Takes.here_bind fun c => ?_
    exact Closes.ite_bind (.accept _ (by decide)) (.pure _) fun tail => .pure _
  · refine Closes.bind (.expect _ (by decide)) fun dot => Takes.here_bind fun c => ?_
    split
    · exact Closes.bind name_closes fun name => .pure _
    · exact Takes.fail _ _
  · exact Closes.single (.take _ (by decide))

/-- A simple selector closes its functions. -/
theorem simpleSelector_closes : simpleSelector.Closes := by
  have hmore (head : Tree) : (do
      let more ← repeatWhile (fun c => c.isTight && startsHere c .selectorPart) do
        return [← selectorPart]
      return head :: more : Parser (List Tree)).Closes :=
    Closes.bind (.repeatWhile (.single selectorPart_closes)) fun more => .pure _
  refine .node (Takes.here_bind fun c => ?_)
  dsimp only
  split
  · exact Closes.bind (.take _ (by decide)) hmore
  · exact Closes.ite_bind selectorPart_closes (Takes.fail _ _) hmore

/-- Where a simple selector is found, the next token may start one. -/
theorem startsHere_of_simpleSelector {c next : Cursor} {t : Tree}
    (h : simpleSelector c = .found t next) :
    startsHere c .selector = true := by
  have hunion :
      startsHere c .selector = (startsHere c .elementName || startsHere c .selectorPart) := by
    unfold startsHere Cursor.isAtAny
    cases c.kind? with
    | none => rfl
    | some k => exact KindSet.contains_union _ _ _
  rw [hunion, Bool.or_eq_true]
  by_contra hnone
  obtain ⟨helement, hpart⟩ := not_or.mp hnone
  obtain ⟨ts, last, hparts, -⟩ := exists_found_of_bind h
  change (if startsHere c .elementName then _ else if startsHere c .selectorPart then _ else _ :
    Parser (List Tree)) c = _ at hparts
  rw [if_neg helement, if_neg hpart] at hparts
  cases hparts

end Parser

namespace Tree

/-- A tree that was found as a simple selector, at some place. -/
def IsSimple (t : Tree) : Prop := ∃ c next, Parser.simpleSelector c = .found t next

namespace IsSimple

variable {t : Tree}

/-- What goes with the tokens that a simple selector takes. -/
theorem of_takes {P : List Token → Tree → Prop} (h : t.IsSimple)
    (hP : Parser.simpleSelector.Takes P) :
    P t.leaves t := by
  obtain ⟨c, next, hfound⟩ := h
  have hspells := Parser.simpleSelector_takes c
  have hc := hP c
  rw [hfound] at hspells hc
  obtain ⟨taken, hrest, hleaves⟩ := hspells
  obtain ⟨taken', hrest', htaken⟩ := hc
  rwa [hleaves.leaves, List.append_cancel_right (hrest.symm.trans hrest')]

/-- A simple selector has tokens. -/
theorem leaves_ne_nil (h : t.IsSimple) : t.leaves ≠ [] :=
  (h.of_takes Parser.simpleSelector_takes).nonempty

/-- In a simple selector all functions are closed. -/
theorem closed (h : t.IsSimple) : Closed t.leaves := h.of_takes Parser.simpleSelector_closes

/-- A simple selector starts with a token with which selectors start. -/
theorem starts (h : t.IsSimple) :
    ∃ x ∈ t.leaves.head?, (Parser.first .selector).contains x.kind = true := by
  obtain ⟨c, next, hfound⟩ := h
  have hstarts := Parser.startsHere_of_simpleSelector hfound
  have hspells := Parser.simpleSelector_takes c
  rw [hfound] at hspells
  obtain ⟨taken, hrest, hspells⟩ := hspells
  obtain ⟨x, xs, rfl⟩ := List.exists_cons_of_ne_nil hspells.nonempty
  rw [hspells.leaves]
  refine ⟨x, rfl, ?_⟩
  simpa [Parser.startsHere, Cursor.isAtAny, Cursor.kind?, Cursor.next?, hrest] using hstarts

end IsSimple

/-- The sign of a combinator. -/
def IsSign (t : Tree) : Prop :=
  ∃ x, t.leaves = [x] ∧ (Parser.first .combinator).contains x.kind = true

/-- A chain of simple selectors, with signs or nothing between them. -/
inductive Chained : Tree → Prop
  | last {simple : Tree} (h : simple.IsSimple) : Chained (.node .selector [simple])
  | blank {simple rest : Tree} (h : simple.IsSimple) (hrest : Chained rest) :
    Chained (.node .selector [simple, rest])
  | sign {simple sign rest : Tree} (h : simple.IsSimple) (hsign : sign.IsSign)
    (hrest : Chained rest) :
    Chained (.node .selector [simple, sign, rest])

/-- Chains of simple selectors with tokens between them, each perhaps with a clause behind it, in
which there are such chains too. -/
inductive Listed : List Tree → Prop
  | nil : Listed []
  | token (x : Token) {ts : List Tree} (h : Listed ts) : Listed (.leaf x :: ts)
  | plain {t : Tree} {ts : List Tree} (ht : t.Chained) (h : Listed ts) : Listed (t :: ts)
  | extended {t : Tree} {parts ts : List Tree}
    (hparts : ∀ u ∈ parts, u.phrase? = some .selector → u.Chained)
    (ht : t.Chained) (h : Listed ts) : Listed (t :: .node .extendClause parts :: ts)

theorem Chained.phrase_eq {t : Tree} (h : t.Chained) : t.phrase? = some .selector := by
  cases h <;> rfl

theorem Listed.phrase_ne {t : Tree} {ts : List Tree} (h : Listed (t :: ts)) :
    t.phrase? ≠ some .extendClause := by
  cases h with
  | token x h => nofun
  | plain ht h => simp [ht.phrase_eq]
  | extended hparts ht h => simp [ht.phrase_eq]

/-- A statement in which chains of simple selectors stand in front of every rule set, at any
depth. -/
inductive Headed : Tree → Prop
  | rulesetOrMixin {list : Tree} {parts : List Tree} (hlist : Listed list.children)
    (hparts : ∀ u ∈ parts, ∀ t ∈ u.inner, Headed t) : Headed (.node .rulesetOrMixin (list :: parts))
  | atRule {q : Phrase} {parts : List Tree} (hparts : ∀ u ∈ parts, ∀ t ∈ u.inner, Headed t) :
    Headed (.node .atRule [.node q parts])
  | loading {t : Tree} (h : t.phrase? = some .importRule ∨ t.phrase? = some .pluginRule) :
    Headed (.node .atRule [t])
  | setting {t : Tree} (h : t.phrase? = some .assignment ∨ t.phrase? = some .declaration) : Headed t

/-- A part of a phrase in which all statements of a block are such. -/
def HeadedInside (u : Tree) : Prop := ∀ t ∈ u.inner, Headed t

end Tree

namespace Parser

open LessCss.Tree

variable {bound : Nat}

/-! ## What the parser finds -/

/-- What is parsed as a simple selector is one. -/
theorem simpleSelector_finds : simpleSelector.Finds bound IsSimple := by
  intro c hc
  have hfound := Finds.of_takes simpleSelector_takes c hc
  cases h : simpleSelector c with
  | failed m next => trivial
  | found t next =>
    rw [h] at hfound
    exact ⟨hfound.1, c, next, h⟩

/-- What is parsed as a combinator is a sign. -/
theorem combinator_finds : combinator.Finds bound IsSign := by
  refine Finds.node ((Finds.take _ _).bind fun t ⟨x, ht, _, hx⟩ => .pure ⟨x, ?_, hx⟩)
  rw [ht]
  rfl

/-- What is parsed as a selector is a chain of simple ones, by induction on the bound. -/
theorem selectorWithin_chained (inExtend : Bool) (n : Nat) :
    (selectorWithin inExtend n).Finds bound Chained := by
  induction n with
  | zero => exact Finds.node (simpleSelector_finds.bind fun head hhead => .pure (.last hhead))
  | succ n ih =>
    refine Finds.node (simpleSelector_finds.bind fun head hhead => Finds.here_bind fun c => ?_)
    split
    · exact combinator_finds.bind fun sign hsign => ih.bind fun rest hrest =>
        .pure (.sign hhead hsign hrest)
    · split
      · exact ih.bind fun rest hrest => .pure (.blank hhead hrest)
      · exact .pure (.last hhead)

theorem selector_chained (inExtend : Bool) : (selector inExtend).Finds bound Chained :=
  fun c hc => selectorWithin_chained inExtend c.rest.length c hc

theorem extendClause_chained : extendClause.Finds bound fun t =>
    ∃ parts, t = .node .extendClause parts ∧ ∀ u ∈ parts, u.phrase? = some .selector →
    u.Chained := by
  have hleaf {t : Tree} {P : Token → Prop} (h : ∃ x, t = .leaf x ∧ P x) :
      t.phrase? ≠ some .selector := by
    obtain ⟨x, rfl, -⟩ := h
    nofun
  refine Finds.node ((Finds.expect _ _).bind fun head hhead => ?_)
  refine (selector_chained true).bind fun target htarget => ?_
  refine (Finds.repeatPair (Finds.expect _ _) (selector_chained true)).bind
    fun more ⟨pairs, hmore, hpairs⟩ => ?_
  refine Finds.here_bind fun c => Finds.ite_bind (Finds.accept _ .ident) (.pure nofun)
    fun all hall => ?_
  refine (Finds.expect _ _).bind fun right hright => .pure ⟨_, rfl, fun u hu hphrase => ?_⟩
  simp only [List.cons_append, List.mem_cons, List.mem_append, List.not_mem_nil, or_false] at hu
  rcases hu with rfl | rfl | (hu | hu) | rfl
  · exact absurd hphrase (hleaf hhead)
  · exact htarget
  · rw [hmore] at hu
    obtain ⟨⟨comma, v⟩, hpair, hu⟩ := List.mem_flatMap.mp hu
    obtain ⟨hcomma, hv⟩ := hpairs _ hpair
    rcases List.mem_pair.mp hu with rfl | rfl
    · exact absurd hphrase (hleaf hcomma)
    · exact hv
  · exact absurd hphrase (hleaf (hall u hu))
  · exact absurd hphrase (hleaf hright)

/-- A list of selectors consists of chains of simple ones. -/
theorem selectorList_listed : selectorList.Finds bound fun t => Listed t.children := by
  have hitem : selectorWithExtend.Finds bound fun ts => ∀ us, Listed us → Listed (ts ++ us) := by
    refine (selector_chained false).bind fun head hhead => Finds.here_bind fun c => ?_
    split
    · refine extendClause_chained.bind fun clause ⟨parts, hclause, hparts⟩ => .pure fun us hus => ?_
      rw [hclause]
      exact .extended hparts hhead hus
    · exact .pure fun us hus => .plain hhead hus
  have hround : Finds bound (do return (← expect .selectorList .comma) :: (← selectorWithExtend))
      fun ts => ∀ us, Listed us → Listed (ts ++ us) := by
    refine (Finds.expect _ _).bind fun comma ⟨x, hcomma, _⟩ => hitem.bind fun item hitem =>
      .pure fun us hus => ?_
    rw [hcomma]
    exact .token x (hitem us hus)
  refine Finds.node (hitem.bind fun item hitem => ?_)
  refine (Finds.repeatWhile hround).bind fun more ⟨rounds, hmore, hrounds⟩ => .pure (hitem more ?_)
  rw [hmore]
  clear hmore
  induction rounds with
  | nil => exact .nil
  | cons round rounds ih =>
    obtain ⟨hround, hothers⟩ := List.forall_mem_cons.mp hrounds
    exact hround _ (ih hothers)

/-! ## Statements -/

section Statements

variable {block : Recovering Tree} (hblock : block.Finds bound HeadedInside)

include hblock

/-- A rule set has chains of simple selectors in front, and so have those in its block. -/
theorem rulesetOrMixin_headed : (rulesetOrMixin block).Finds bound Headed := by
  refine Recovering.Finds.node (Recovering.Finds.lift_bind selectorList_listed fun list hlist => ?_)
  exact (afterSelectors_inside hblock list).bind fun parts hparts =>
    .pure (.rulesetOrMixin hlist hparts)

/-- So has every statement, if the statements in its blocks have. -/
theorem statement_headed (inBlock : Bool) : (statement block inBlock).Finds bound Headed := by
  refine statement_finds_of (fun t => .setting) (atRule_finds_of (fun t => .loading) ?_ ?_)
    (rulesetOrMixin_headed hblock) inBlock
  · exact (mediaRule_inside hblock).mono fun t ⟨parts, ht, hparts⟩ => ht ▸ .atRule hparts
  · exact (generalAtRule_inside hblock).mono fun t ⟨parts, ht, hparts⟩ => ht ▸ .atRule hparts

end Statements

end Parser

/-- **Chains of simple selectors stand in front of the rule sets** of a text without complaints, at
any depth. -/
theorem Parse.headed_ofText {source : String} (h : (Parse.ofText source).mismatches = []) :
    ∀ t ∈ (Parse.ofText source).tree.children, t.Headed :=
  forall_statements h fun _ => Parser.statement_headed

end LessCss
