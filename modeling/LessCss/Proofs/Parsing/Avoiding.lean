import LessCss.Proofs.Parsing.Taking

/-!
# What a parser leaves alone

The braces of a stylesheet are taken by blocks, and by recovery behind a mismatch, and by nothing
else.  Most phrases also leave semicolons alone, and among them values.  `Parser.Avoids kinds p P`
says that `p` takes no token of the given kinds, whether it finds something or fails, and that what
it finds satisfies `P`.  As for `Parser.Takes` there is one rule for each way of putting parsers
together; a failure matters here as well, because a failed phrase keeps what it took.

The trees that are found without taking braces have no blocks in them (`Tree.Blockless`).
-/

namespace LessCss

/-- The kinds of token that open and close blocks. -/
def braces : List Kind := [.leftBrace, .rightBrace]

/-- The kinds of token that end a statement, or open or close a block. -/
def stops : List Kind := .semicolon :: braces

theorem Cursor.isAt_of_rest_nil {c : Cursor} (h : c.rest = []) (k : Kind) : c.isAt k = false := by
  simp [isAt, kind?, next?, h]

/-- Where a token of a kind is to come, there is such a token. -/
theorem Cursor.exists_of_isAt {c : Cursor} {k : Kind} (h : c.isAt k = true) :
    ∃ t ts, c.rest = t :: ts ∧ t.kind = k := by
  cases hrest : c.rest with
  | nil => simp [isAt, kind?, next?, hrest] at h
  | cons t ts => exact ⟨t, ts, rfl, by simpa [isAt, kind?, next?, hrest] using h⟩

namespace Tree

mutual
/-- No block stands anywhere in a tree. -/
def Blockless : Tree → Prop
  | leaf _ => True
  | node p ts => p ≠ .block ∧ BlocklessAll ts
/-- The same for every tree of a row. -/
def BlocklessAll : List Tree → Prop
  | [] => True
  | t :: ts => Blockless t ∧ BlocklessAll ts
end

@[simp] theorem blockless_leaf (x : Token) : (leaf x).Blockless := trivial

@[simp] theorem blocklessAll_nil : BlocklessAll [] := trivial

@[simp] theorem blocklessAll_cons (t : Tree) (ts : List Tree) :
    BlocklessAll (t :: ts) ↔ t.Blockless ∧ BlocklessAll ts := Iff.rfl

@[simp] theorem blocklessAll_append (ts us : List Tree) :
    BlocklessAll (ts ++ us) ↔ BlocklessAll ts ∧ BlocklessAll us := by
  induction ts with
  | nil => simp
  | cons t ts ih => simp [ih, and_assoc]

end Tree

/-- An outcome of parsing at the given tokens, where no token of the given kinds was taken. -/
def Outcome.Avoids {α : Type} (kinds : List Kind) (P : α → Prop) (tokens : List Token) :
    Outcome α → Prop
  | .found a next => (∃ taken, tokens = taken ++ next.rest ∧ ∀ t ∈ taken, t.kind ∉ kinds) ∧ P a
  | .failed _ next => ∃ taken, tokens = taken ++ next.rest ∧ ∀ t ∈ taken, t.kind ∉ kinds

namespace Parser

open LessCss.Tree

variable {α β : Type} {kinds : List Kind}

/-- A parser takes no token of the given kinds, and what it finds satisfies `P`. -/
def Avoids (kinds : List Kind) (p : Parser α) (P : α → Prop) : Prop :=
  ∀ c, (p c).Avoids kinds P c.rest

namespace Avoids

variable {P : α → Prop} {Q : β → Prop}

/-- What takes no token of some kinds takes none of fewer kinds. -/
theorem mono {p : Parser α} {kinds' : List Kind} (h : p.Avoids kinds P) (hkinds : kinds' ⊆ kinds) :
    p.Avoids kinds' P := by
  intro c
  have hc := h c
  cases hp : p c with
  | found a next =>
    rw [hp] at hc
    obtain ⟨⟨taken, hrest, htaken⟩, ha⟩ := hc
    exact ⟨⟨taken, hrest, fun t ht hk => htaken t ht (hkinds hk)⟩, ha⟩
  | failed m next =>
    rw [hp] at hc
    obtain ⟨taken, hrest, htaken⟩ := hc
    exact ⟨taken, hrest, fun t ht hk => htaken t ht (hkinds hk)⟩

theorem imp {p : Parser α} {P' : α → Prop} (h : p.Avoids kinds P) (hP : ∀ a, P a → P' a) :
    p.Avoids kinds P' := by
  intro c
  have hc := h c
  cases hp : p c with
  | found a next => rw [hp] at hc; exact ⟨hc.1, hP a hc.2⟩
  | failed m next => rw [hp] at hc; exact hc

theorem pure {a : α} (h : P a) : (Pure.pure a : Parser α).Avoids kinds P :=
  fun _ => ⟨⟨[], rfl, nofun⟩, h⟩

/-- One parser behind another avoids what both of them avoid. -/
theorem bind {p : Parser α} {f : α → Parser β} (hp : p.Avoids kinds P)
    (hf : ∀ a, P a → (f a).Avoids kinds Q) : (p >>= f).Avoids kinds Q := by
  intro c
  have hc := hp c
  cases h : p c with
  | failed m next =>
    rw [h] at hc
    rw [bind_of_failed h]
    exact hc
  | found a next =>
    rw [h] at hc
    obtain ⟨⟨taken, hrest, htaken⟩, ha⟩ := hc
    -- what the second parser takes stands behind what the first one took
    have hboth {more last : List Token} (hnext : next.rest = more ++ last)
        (hmore : ∀ t ∈ more, t.kind ∉ kinds) :
        ∃ taken, c.rest = taken ++ last ∧ ∀ t ∈ taken, t.kind ∉ kinds :=
      ⟨taken ++ more, by rw [hrest, hnext, List.append_assoc], List.forall_mem_append.mpr
        ⟨htaken, hmore⟩⟩
    have hnext := hf a ha next
    rw [bind_of_found h]
    cases hfa : f a next with
    | failed m last =>
      rw [hfa] at hnext
      obtain ⟨more, hmore, hkinds⟩ := hnext
      exact hboth hmore hkinds
    | found b last =>
      rw [hfa] at hnext
      obtain ⟨⟨more, hmore, hkinds⟩, hb⟩ := hnext
      exact ⟨hboth hmore hkinds, hb⟩

/-- Looking at the place takes no token. -/
theorem here_bind {f : Cursor → Parser β} (hf : ∀ c, (f c).Avoids kinds Q) :
    (Parser.here >>= f).Avoids kinds Q := fun c => hf c c

/-- A choice between two parsers, with the same steps behind both. -/
theorem ite_bind {b : Bool} {p q : Parser α} {f : α → Parser β} (hp : p.Avoids kinds P)
    (hq : q.Avoids kinds P) (hf : ∀ a, P a → (f a).Avoids kinds Q) :
    (if b then p >>= f else q >>= f).Avoids kinds Q := by
  cases b with
  | true => exact hp.bind hf
  | false => exact hq.bind hf

/-- A parser that fails takes no token. -/
theorem fail (phrase : Phrase) (wanted : KindSet) :
    (Parser.fail phrase wanted : Parser α).Avoids kinds P :=
  fun _ => ⟨[], rfl, nofun⟩

theorem attempt {p : Parser α} (hp : p.Avoids kinds P) :
    (Parser.attempt p).Avoids kinds fun o => ∀ a, o = some a → P a := by
  intro c
  have hc := hp c
  unfold Parser.attempt
  cases h : p c with
  | failed m next => exact ⟨⟨[], rfl, nofun⟩, nofun⟩
  | found a next =>
    rw [h] at hc
    refine ⟨hc.1, fun b hb => ?_⟩
    cases hb
    exact hc.2

/-! ### Trees -/

/-- A token is taken only if it is of a wanted kind. -/
theorem take (phrase : Phrase) (wanted : KindSet) (h : ∀ k ∈ kinds, wanted.contains k = false) :
    (Parser.take phrase wanted).Avoids kinds Blockless := by
  intro c
  unfold Parser.take
  split
  · rename_i x ts hrest
    split
    · rename_i hwanted
      refine ⟨⟨[x], hrest, List.forall_mem_singleton.mpr fun hk => ?_⟩, trivial⟩
      rw [h _ hk] at hwanted
      exact absurd hwanted Bool.false_ne_true
    · exact ⟨[], rfl, nofun⟩
  · exact ⟨[], rfl, nofun⟩

/-- Expecting another kind of token avoids the kinds in question. -/
theorem expect (phrase : Phrase) {k : Kind} (h : k ∉ kinds) :
    (Parser.expect phrase k).Avoids kinds Blockless := by
  refine take phrase _ fun j hj => ?_
  have hne : j ≠ k := fun hjk => h (hjk ▸ hj)
  simpa using hne

/-- A row of one tree. -/
theorem single {p : Parser Tree} (hp : p.Avoids kinds Blockless) :
    (do return [← p] : Parser (List Tree)).Avoids kinds BlocklessAll :=
  hp.bind fun _ ht => pure ⟨ht, trivial⟩

/-- A row of two trees. -/
theorem pair {p q : Parser Tree} (hp : p.Avoids kinds Blockless) (hq : q.Avoids kinds Blockless) :
    (do return [← p, ← q] : Parser (List Tree)).Avoids kinds BlocklessAll :=
  hp.bind fun _ ht => hq.bind fun _ hu => pure ⟨ht, hu, trivial⟩

/-- A phrase that may be left out, with the same steps behind it in both cases. -/
theorem optional_bind {b : Bool} {p : Parser Tree} {f : List Tree → Parser β}
    (hp : p.Avoids kinds Blockless) (hf : ∀ ts, BlocklessAll ts → (f ts).Avoids kinds Q) :
    (if b then (do let t ← p; let ts ← Pure.pure [t]; f ts)
      else (do let ts ← Pure.pure []; f ts)).Avoids
      kinds Q := by
  cases b with
  | true => exact hp.bind fun t ht => hf [t] ⟨ht, trivial⟩
  | false => exact hf [] trivial

theorem accept (phrase : Phrase) {k : Kind} (h : k ∉ kinds) :
    (Parser.accept phrase k).Avoids kinds BlocklessAll := by
  refine here_bind fun c => ?_
  split
  · exact single (expect phrase h)
  · exact pure trivial

/-- A phrase other than a block has no block in it if its parts have none. -/
theorem node {phrase : Phrase} {p : Parser (List Tree)} (hphrase : phrase ≠ .block)
    (hp : p.Avoids kinds BlocklessAll) : (Parser.node phrase p).Avoids kinds Blockless :=
  hp.bind fun _ hts => pure ⟨hphrase, hts⟩

/-- A repetition avoids what each of its rounds avoids. -/
theorem repeatWhile {more : Cursor → Bool} {item : Parser (List Tree)}
    (hitem : item.Avoids kinds BlocklessAll) :
    (Parser.repeatWhile more item).Avoids kinds BlocklessAll := by
  have hwithin (bound : Nat) : (repeatWithin more item bound).Avoids kinds BlocklessAll := by
    induction bound with
    | zero => exact pure trivial
    | succ bound ih =>
      refine here_bind fun c => ?_
      split
      · exact hitem.bind fun ts hts => ih.bind fun us hus => pure (by simp [hts, hus])
      · exact pure trivial
  exact fun c => hwithin c.rest.length c

/-- What goes on behind a token takes that token too. -/
theorem behind {t : Token} {ts : List Token} {o : Outcome (List Tree)} (ht : t.kind ∉ kinds)
    (h : o.Avoids kinds BlocklessAll ts) :
    (match o with
      | .found rest next => Outcome.found (Tree.leaf t :: rest) next
      | .failed m next => .failed m next).Avoids kinds BlocklessAll (t :: ts) := by
  have hcons {next : List Token} : (∃ taken, ts = taken ++ next ∧ ∀ u ∈ taken, u.kind ∉ kinds) →
      ∃ taken, t :: ts = taken ++ next ∧ ∀ u ∈ taken, u.kind ∉ kinds := by
    rintro ⟨taken, hts, htaken⟩
    exact ⟨t :: taken, by rw [hts, List.cons_append], List.forall_mem_cons.mpr ⟨ht, htaken⟩⟩
  cases o with
  | failed m next => exact hcons h
  | found rest next => exact ⟨hcons h.1, trivial, h.2⟩

/-- Parentheses that are kept as they are end at every brace and semicolon. -/
theorem balanced (phrase : Phrase) : (Parser.balanced phrase).Avoids stops BlocklessAll := by
  have hfrom (ts : List Token) : ∀ depth previous,
      (takeBalanced phrase depth previous ts).Avoids stops BlocklessAll ts := by
    induction ts with
    | nil => exact fun _ _ => ⟨[], rfl, nofun⟩
    | cons t ts ih =>
      intro depth previous
      unfold takeBalanced
      dsimp only
      split
      case h_1 h | h_2 h | h_3 h => exact behind (by rw [h]; decide) (ih _ _)
      case h_4 h =>
        have ht : t.kind ∉ stops := by rw [h]; decide
        split
        · exact ⟨⟨[t], rfl, List.forall_mem_singleton.mpr ht⟩, trivial, trivial⟩
        · exact behind ht (ih _ _)
      case h_5 | h_6 | h_7 => exact ⟨[], rfl, nofun⟩
      case h_8 hleft hright hsemicolon =>
        refine behind (fun hk => ?_) (ih _ _)
        simp only [stops, braces, List.mem_cons, List.not_mem_nil, or_false] at hk
        rcases hk with hk | hk | hk
        · exact hsemicolon hk
        · exact hleft hk
        · exact hright hk
  exact fun c => hfrom c.rest 0 c.previous

end Avoids

/-! ## Selectors -/

theorem name_avoids : name.Avoids stops Blockless := by
  refine .node (by decide) ((Avoids.take _ _ (by decide)).bind fun head hhead => ?_)
  refine (Avoids.repeatWhile (.single (.take _ _ (by decide)))).bind fun more hmore => .pure ?_
  exact ⟨hhead, hmore⟩

theorem pseudo_avoids : pseudo.Avoids stops Blockless := by
  refine .node (by decide) ((Avoids.expect _ (by decide)).bind fun colon hcolon =>
    .here_bind fun c => ?_)
  refine Avoids.ite_bind (.accept _ (by decide)) (.pure trivial) fun second hsecond =>
    .here_bind fun c => ?_
  split
  · exact .fail _ _
  · refine (Avoids.take _ _ (by decide)).bind fun word hword => ?_
    refine Avoids.ite_bind (.balanced _) (.pure trivial) fun inner hinner => .pure ?_
    simp [hcolon, hsecond, hword, hinner]

theorem attributeComparison_avoids : attributeComparison.Avoids stops BlocklessAll := by
  refine .here_bind fun c => ?_
  split
  · refine (Avoids.expect _ (by decide)).bind fun sign hsign => .here_bind fun c => ?_
    split
    · exact (Avoids.take _ _ (by decide)).bind fun value hvalue => .pure (by simp [hsign, hvalue])
    · exact .fail _ _
  · exact .pure trivial

theorem attributeSelector_avoids : attributeSelector.Avoids stops Blockless := by
  refine .node (by decide) ((Avoids.expect _ (by decide)).bind fun left hleft => ?_)
  refine (Avoids.expect _ (by decide)).bind fun name hname => ?_
  refine attributeComparison_avoids.bind fun test htest => ?_
  refine (Avoids.accept _ (by decide)).bind fun modifier hmodifier => ?_
  refine (Avoids.expect _ (by decide)).bind fun right hright => .pure ?_
  simp [hleft, hname, htest, hmodifier, hright]

theorem selectorPart_avoids : selectorPart.Avoids stops Blockless := by
  refine .node (by decide) (.here_bind fun c => ?_)
  split
  · exact .single attributeSelector_avoids
  · exact .single pseudo_avoids
  · refine (Avoids.expect _ (by decide)).bind fun parent hparent => .here_bind fun c => ?_
    exact Avoids.ite_bind (.accept _ (by decide)) (.pure trivial) fun tail htail =>
      .pure ⟨hparent, htail⟩
  · refine (Avoids.expect _ (by decide)).bind fun dot hdot => .here_bind fun c => ?_
    split
    · exact name_avoids.bind fun name hname => .pure (by simp [hdot, hname])
    · exact .fail _ _
  · exact .single (.take _ _ (by decide))

theorem simpleSelector_avoids : simpleSelector.Avoids stops Blockless := by
  refine .node (by decide) (.here_bind fun c => ?_)
  have hmore (head : Tree) (hhead : head.Blockless) :
      (do let more ← repeatWhile (fun c => c.isTight && startsHere c .selectorPart) do
            return [← selectorPart]
          return head :: more : Parser (List Tree)).Avoids stops BlocklessAll :=
    (Avoids.repeatWhile (.single selectorPart_avoids)).bind fun more hmore => .pure ⟨hhead, hmore⟩
  dsimp only
  split
  · exact (Avoids.take _ _ (by decide)).bind hmore
  · exact Avoids.ite_bind selectorPart_avoids (.fail _ _) hmore

theorem combinator_avoids : combinator.Avoids stops Blockless :=
  .node (by decide) (.single (.take _ _ (by decide)))

theorem selectorWithin_avoids (inExtend : Bool) (bound : Nat) :
    (selectorWithin inExtend bound).Avoids stops Blockless := by
  induction bound with
  | zero => exact .node (by decide) (.single simpleSelector_avoids)
  | succ bound ih =>
    refine .node (by decide) (simpleSelector_avoids.bind fun head hhead => .here_bind fun c => ?_)
    split
    · refine combinator_avoids.bind fun sign hsign => ih.bind fun rest hrest => .pure ?_
      simp [hhead, hsign, hrest]
    · split
      · exact ih.bind fun rest hrest => .pure (by simp [hhead, hrest])
      · exact .pure (by simp [hhead])

/-- A selector has no braces and no semicolons in it. -/
theorem selector_avoids (inExtend : Bool) : (selector inExtend).Avoids stops Blockless :=
  fun c => selectorWithin_avoids inExtend c.rest.length c

theorem extendClause_avoids : extendClause.Avoids stops Blockless := by
  refine .node (by decide) ((Avoids.expect _ (by decide)).bind fun head hhead => ?_)
  refine (selector_avoids true).bind fun target htarget => ?_
  have hitem :=
    Avoids.pair (Avoids.expect .extendClause (k := .comma) (by decide)) (selector_avoids true)
  refine (Avoids.repeatWhile hitem).bind fun more hmore => .here_bind fun c => ?_
  refine Avoids.ite_bind (.accept _ (by decide)) (.pure trivial) fun all hall => ?_
  refine (Avoids.expect _ (by decide)).bind fun right hright => .pure ?_
  simp [hhead, htarget, hmore, hall, hright]

theorem selectorWithExtend_avoids : selectorWithExtend.Avoids stops BlocklessAll := by
  refine (selector_avoids false).bind fun head hhead => .here_bind fun c => ?_
  split
  · exact extendClause_avoids.bind fun clause hclause => .pure (by simp [hhead, hclause])
  · exact .pure (by simp [hhead])

theorem selectorList_avoids : selectorList.Avoids stops Blockless := by
  have hitem : (do return (← expect .selectorList .comma) :: (← selectorWithExtend) :
      Parser (List Tree)).Avoids stops BlocklessAll :=
    (Avoids.expect _ (by decide)).bind fun _ hcomma => selectorWithExtend_avoids.bind fun _ h =>
      .pure ⟨hcomma, h⟩
  refine .node (by decide) (selectorWithExtend_avoids.bind fun head hhead => ?_)
  exact (Avoids.repeatWhile hitem).bind fun more hmore => .pure (by simp [hhead, hmore])

/-! ## Values -/

section Values

variable {inner : Parser Tree} (hinner : inner.Avoids stops Blockless)

include hinner

theorem productOver_avoids : (productOver inner).Avoids stops Blockless := by
  refine .node (by decide) (hinner.bind fun head hhead => ?_)
  have hitem := Avoids.pair (Avoids.take .product (.ofList [.star, .slash]) (by decide)) hinner
  exact (Avoids.repeatWhile hitem).bind fun more hmore => .pure ⟨hhead, hmore⟩

theorem sumOver_avoids : (sumOver inner).Avoids stops Blockless := by
  have hproduct := productOver_avoids hinner
  refine .node (by decide) (hproduct.bind fun head hhead => ?_)
  have hitem := Avoids.pair (Avoids.take .sum (.ofList [.plus, .minus]) (by decide)) hproduct
  exact (Avoids.repeatWhile hitem).bind fun more hmore => .pure ⟨hhead, hmore⟩

theorem expressionOver_avoids : (expressionOver inner).Avoids stops Blockless := by
  have hsum := sumOver_avoids hinner
  refine .node (by decide) (hsum.bind fun head hhead => ?_)
  exact (Avoids.repeatWhile (.single hsum)).bind fun more hmore => .pure ⟨hhead, hmore⟩

theorem valueOver_avoids : (valueOver inner).Avoids stops Blockless := by
  have hexpression := expressionOver_avoids hinner
  refine .node (by decide) (hexpression.bind fun head hhead => ?_)
  have hitem := Avoids.pair (Avoids.expect .value (k := .comma) (by decide)) hexpression
  exact (Avoids.repeatWhile hitem).bind fun more hmore => .pure ⟨hhead, hmore⟩

omit hinner in
theorem featureName_avoids : featureName.Avoids stops BlocklessAll := by
  refine .here_bind fun c => ?_
  split
  · exact .pair (.expect _ (by decide)) (.expect _ (by decide))
  · exact .pure trivial

theorem parensOver_avoids : (parensOver inner).Avoids stops Blockless := by
  refine .node (by decide) ((Avoids.expect _ (by decide)).bind fun left hleft => ?_)
  refine featureName_avoids.bind fun feature hfeature => (valueOver_avoids hinner).bind
    fun value hvalue => ?_
  refine (Avoids.expect _ (by decide)).bind fun right hright => .pure ?_
  simp [hleft, hfeature, hvalue, hright]

theorem operandParts_avoids : (operandParts inner).Avoids stops BlocklessAll := by
  refine .here_bind fun c => ?_
  split
  · refine (Avoids.expect _ (by decide)).bind fun minus hminus => .here_bind fun c => ?_
    split
    · exact hinner.bind fun x hx => .pure (by simp [hminus, hx])
    · exact .fail _ _
  · refine (Avoids.expect _ (by decide)).bind fun tilde htilde => .here_bind fun c => ?_
    split
    · exact (Avoids.expect _ (by decide)).bind fun x hx => .pure (by simp [htilde, hx])
    · exact .fail _ _
  · refine (Avoids.expect _ (by decide)).bind fun head hhead => .here_bind fun c => ?_
    split
    · exact (Avoids.expect _ (by decide)).bind fun x hx => .pure (by simp [hhead, hx])
    · refine (valueOver_avoids hinner).bind fun value hvalue => ?_
      exact (Avoids.expect _ (by decide)).bind fun right hright =>
        .pure (by simp [hhead, hvalue, hright])
  · exact .single (parensOver_avoids hinner)
  · exact .single (.take _ _ (by decide))

end Values

/-- An operand has no braces and no semicolons in it, however deep parentheses are nested. -/
theorem operandWithin_avoids (bound : Nat) : (operandWithin bound).Avoids stops Blockless := by
  induction bound with
  | zero => exact .fail _ _
  | succ bound ih => exact .node (by decide) (operandParts_avoids ih)

theorem expression_avoids : expression.Avoids stops Blockless :=
  fun c => expressionOver_avoids (operandWithin_avoids c.rest.length) c

theorem value_avoids : value.Avoids stops Blockless :=
  fun c => valueOver_avoids (operandWithin_avoids c.rest.length) c

theorem parens_avoids : parens.Avoids stops Blockless :=
  fun c => parensOver_avoids (operandWithin_avoids c.rest.length) c

/-! ## Arguments, guards and media queries -/

theorem argument_avoids : argument.Avoids stops Blockless := by
  have hname : argumentName.Avoids stops BlocklessAll := by
    refine .here_bind fun c => ?_
    split
    · exact .pair (.expect _ (by decide)) (.expect _ (by decide))
    · exact .pure trivial
  refine .node (by decide) (hname.bind fun name hname => expression_avoids.bind
    fun content hcontent => ?_)
  exact .pure (by simp [hname, hcontent])

/-- Arguments may be separated by semicolons, so that only braces are left alone. -/
theorem arguments_avoids : arguments.Avoids braces Blockless := by
  have hargument : argument.Avoids braces Blockless :=
    argument_avoids.mono (List.subset_cons_self _ _)
  refine .node (by decide) ((Avoids.expect _ (by decide)).bind fun left hleft =>
    .here_bind fun c => ?_)
  split
  · exact (Avoids.expect _ (by decide)).bind fun right hright => .pure (by simp [hleft, hright])
  · refine hargument.bind fun head hhead => ?_
    have hitem := Avoids.pair (Avoids.take .arguments (.ofList [.comma, .semicolon]) (by decide))
      hargument
    refine (Avoids.repeatWhile hitem).bind fun more hmore => ?_
    refine (Avoids.expect _ (by decide)).bind fun right hright => .pure ?_
    simp [hleft, hhead, hmore, hright]

theorem condition_avoids : condition.Avoids stops BlocklessAll := by
  refine .here_bind fun c => Avoids.optional_bind (.expect _ (by decide))
    fun negation hnegation => ?_
  refine (Avoids.expect _ (by decide)).bind fun left hleft => (Avoids.balanced _).bind
    fun rest hrest => ?_
  exact .pure (by simp [hnegation, hleft, hrest])

theorem guard_avoids : guard.Avoids stops Blockless := by
  have hitem : (do return (← take .guard (.ofList [.and, .or, .comma])) :: (← condition) :
      Parser (List Tree)).Avoids stops BlocklessAll :=
    (Avoids.take _ _ (by decide)).bind fun _ hjoiner => condition_avoids.bind fun _ h =>
      .pure ⟨hjoiner, h⟩
  refine .node (by decide) ((Avoids.expect _ (by decide)).bind fun head hhead => ?_)
  refine condition_avoids.bind fun first hfirst => (Avoids.repeatWhile hitem).bind
    fun more hmore => ?_
  exact .pure (by simp [hhead, hfirst, hmore])

theorem mediaQuery_avoids : mediaQuery.Avoids stops Blockless := by
  refine .node (by decide) ((Avoids.repeatWhile (.here_bind fun c => ?_)).bind
    fun parts hparts => ?_)
  · split
    · exact .single parens_avoids
    · exact .single (.take _ _ (by decide))
  · split
    · exact .fail _ _
    · exact .pure hparts

theorem mediaList_avoids : mediaList.Avoids stops Blockless := by
  refine .node (by decide) (mediaQuery_avoids.bind fun head hhead => ?_)
  have hitem := Avoids.pair (Avoids.expect .mediaList (k := .comma) (by decide)) mediaQuery_avoids
  exact (Avoids.repeatWhile hitem).bind fun more hmore => .pure ⟨hhead, hmore⟩

/-! ## Statements without blocks -/

theorem ending_avoids (phrase : Phrase) : (ending phrase).Avoids braces BlocklessAll := by
  refine (Avoids.accept _ (by decide)).bind fun important himportant => .here_bind fun c => ?_
  split
  · exact .pure himportant
  · exact (Avoids.expect _ (by decide)).bind fun semicolon h => .pure (by simp [himportant, h])

/-- A declaration has no braces in it. -/
theorem declaration_avoids : declaration.Avoids braces Blockless := by
  refine .node (by decide) ((name_avoids.mono (List.subset_cons_self _ _)).bind
    fun property hproperty => ?_)
  refine (Avoids.expect _ (by decide)).bind fun colon hcolon => ?_
  refine (value_avoids.mono (List.subset_cons_self _ _)).bind fun content hcontent => ?_
  exact (ending_avoids _).bind fun rest hrest => .pure ⟨hproperty, hcolon, hcontent, hrest⟩

theorem assignment_avoids : assignment.Avoids braces Blockless := by
  refine .node (by decide) ((Avoids.expect _ (by decide)).bind fun head hhead => ?_)
  refine (Avoids.expect _ (by decide)).bind fun colon hcolon => ?_
  refine (value_avoids.mono (List.subset_cons_self _ _)).bind fun content hcontent => ?_
  exact (ending_avoids _).bind fun rest hrest => .pure ⟨hhead, hcolon, hcontent, hrest⟩

theorem importOptions_avoids : importOptions.Avoids braces BlocklessAll := by
  refine .here_bind fun c => ?_
  split
  · refine (Avoids.expect _ (by decide)).bind fun left hleft => ?_
    refine (Avoids.expect _ (by decide)).bind fun option hoption => ?_
    refine (Avoids.repeatWhile (.pair (.expect _ (by decide)) (.expect _ (by decide)))).bind
      fun more hmore => ?_
    refine (Avoids.expect _ (by decide)).bind fun right hright => .pure ?_
    simp [hleft, hoption, hmore, hright]
  · exact .pure trivial

theorem importRule_avoids : importRule.Avoids braces Blockless := by
  refine .node (by decide) ((Avoids.expect _ (by decide)).bind fun head hhead => ?_)
  refine importOptions_avoids.bind fun options hoptions => (Avoids.take _ _ (by decide)).bind
    fun path hpath => ?_
  refine .here_bind fun c => ?_
  refine Avoids.optional_bind (mediaList_avoids.mono (List.subset_cons_self _ _))
    fun media hmedia => ?_
  refine (Avoids.expect _ (by decide)).bind fun semicolon hsemicolon => .pure ?_
  simp [hhead, hoptions, hpath, hmedia, hsemicolon]

theorem pluginArguments_avoids : pluginArguments.Avoids braces BlocklessAll := by
  refine .here_bind fun c => ?_
  split
  · refine .single (.node (by decide) ((Avoids.expect _ (by decide)).bind fun left hleft => ?_))
    refine ((Avoids.balanced _).mono (List.subset_cons_self _ _)).bind fun rest hrest => .pure ?_
    exact ⟨hleft, hrest⟩
  · exact .pure trivial

theorem pluginRule_avoids : pluginRule.Avoids braces Blockless := by
  refine .node (by decide) ((Avoids.expect _ (by decide)).bind fun head hhead => ?_)
  refine pluginArguments_avoids.bind fun args hargs => (Avoids.take _ _ (by decide)).bind
    fun path hpath => ?_
  refine (Avoids.expect _ (by decide)).bind fun semicolon hsemicolon => .pure ?_
  simp [hhead, hargs, hpath, hsemicolon]

theorem valuePrelude_avoids : valuePrelude.Avoids stops Blockless := by
  refine value_avoids.bind fun content hcontent => .here_bind fun c => ?_
  split
  · exact .pure hcontent
  · exact .fail _ _

theorem rawPrelude_avoids : rawPrelude.Avoids stops BlocklessAll :=
  .repeatWhile (.single (.take _ _ (by decide)))

/-- The prelude of an at-rule has no braces and no semicolons in it. -/
theorem atRulePrelude_avoids : atRulePrelude.Avoids stops BlocklessAll := by
  refine .here_bind fun c => ?_
  split
  · exact .pure trivial
  · refine valuePrelude_avoids.attempt.bind fun early hearly => ?_
    cases early with
    | some content => exact .pure (by simp [hearly content rfl])
    | none => exact rawPrelude_avoids

end Parser

end LessCss
