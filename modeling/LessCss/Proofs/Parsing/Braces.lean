import LessCss.Proofs.Parsing.Avoiding
import LessCss.Proofs.Parsing.Totality

/-!
# Braces match

A block takes an opening brace, statements and a closing brace.  That the two braces belong together
in the text has to be argued for, because statements inside of the block may fail, and what is
skipped behind a mismatch is in no tree.  The argument goes along the tokens: what a statement
takes, and what is skipped behind one that fails, opens as many braces as it closes, unless the
tokens end before that (`Parser.resume_balanced`, `Parser.bodyWithin_balanced`).  A block that finds
its closing brace has not come to the end of the tokens, so that everything between its braces is
balanced (`Parse.matched_ofText`).
-/

namespace LessCss

/-! ## Balanced tokens -/

/-- How many braces are open behind some tokens, with `depth` of them open before; `none` if a brace
is closed that was not opened. -/
def openBraces : Nat → List Token → Option Nat
  | depth, [] => some depth
  | depth, t :: ts =>
    if t.kind = .leftBrace then openBraces (depth + 1) ts
    else if t.kind = .rightBrace then
      match depth with
      | 0 => none
      | d + 1 => openBraces d ts
    else openBraces depth ts

/-- Every brace that is opened is closed, and no other. -/
def Balanced (tokens : List Token) : Prop := openBraces 0 tokens = some 0

instance (tokens : List Token) : Decidable (Balanced tokens) := inferInstanceAs (Decidable (_ = _))

theorem openBraces_left {t : Token} (h : t.kind = .leftBrace) (depth : Nat) (ts : List Token) :
    openBraces depth (t :: ts) = openBraces (depth + 1) ts := by
  cases depth <;> rw [openBraces, if_pos h]

theorem openBraces_right {t : Token} (h : t.kind = .rightBrace) (depth : Nat) (ts : List Token) :
    openBraces (depth + 1) (t :: ts) = openBraces depth ts := by
  rw [openBraces, if_neg (by rw [h]; decide), if_pos h]

theorem openBraces_other {t : Token} (h : t.kind ∉ braces) (depth : Nat) (ts : List Token) :
    openBraces depth (t :: ts) = openBraces depth ts := by
  simp only [braces, List.mem_cons, List.not_mem_nil, or_false, not_or] at h
  cases depth <;> rw [openBraces, if_neg h.1, if_neg h.2]

/-- How many braces are open behind two rows of tokens is counted along the first and then the
second. -/
theorem openBraces_append (depth : Nat) (ts us : List Token) :
    openBraces depth (ts ++ us) = (openBraces depth ts).bind (openBraces · us) := by
  fun_induction openBraces depth ts with
  | case1 depth => rfl
  | case2 depth t ts hleft ih => rw [List.cons_append, openBraces_left hleft, ih]
  | case3 t ts hleft hright => rw [List.cons_append, openBraces, if_neg hleft, if_pos hright]; rfl
  | case4 t ts hleft hright depth ih => rw [List.cons_append, openBraces_right hright, ih]
  | case5 depth t ts hleft hright ih =>
    have hother : t.kind ∉ braces := by simp [braces, hleft, hright]
    rw [List.cons_append, openBraces_other hother, ih]

/-- Braces that are open before stay open. -/
theorem openBraces_add {depth last : Nat} {ts : List Token} (h : openBraces depth ts = some last)
    (more : Nat) : openBraces (depth + more) ts = some (last + more) := by
  fun_induction openBraces depth ts with
  | case1 depth =>
    cases h
    rfl
  | case2 depth t ts hleft ih =>
    rw [openBraces_left hleft, Nat.add_right_comm]
    exact ih h
  | case3 t ts hleft hright => cases h
  | case4 t ts hleft hright depth ih =>
    rw [Nat.succ_add, openBraces_right hright]
    exact ih h
  | case5 depth t ts hleft hright ih =>
    rw [openBraces_other (by simp [braces, hleft, hright])]
    exact ih h

namespace Balanced

variable {ts us : List Token}

/-- Balanced tokens behind balanced ones are balanced. -/
theorem append (h : Balanced ts) (h' : Balanced us) : Balanced (ts ++ us) := by
  rw [Balanced, openBraces_append, show openBraces 0 ts = some 0 from h]
  exact h'

/-- Tokens without braces. -/
theorem of_avoiding (h : ∀ t ∈ ts, t.kind ∉ braces) : Balanced ts := by
  induction ts with
  | nil => rfl
  | cons t ts ih =>
    obtain ⟨ht, hts⟩ := List.forall_mem_cons.mp h
    rw [Balanced, openBraces_other ht]
    exact ih hts

/-- Balanced tokens between two braces. -/
theorem enclosed {left right : Token} (h : Balanced ts) (hleft : left.kind = .leftBrace)
    (hright : right.kind = .rightBrace) : Balanced (left :: ts ++ [right]) := by
  have hinner : openBraces 1 ts = some 1 := openBraces_add h 1
  rw [Balanced, List.cons_append, openBraces_left hleft, openBraces_append, hinner]
  exact openBraces_right hright 0 []

end Balanced

/-! ## Matched blocks -/

namespace Tree

mutual
/-- Every block in a tree starts with an opening and ends with a closing brace, and these match in a
row of tokens. -/
def Matched (row : List Token) : Tree → Prop
  | leaf _ => True
  | node p ts =>
    (p = .block → ∃ left inner right between, ts = leaf left :: inner ++ [leaf right] ∧
      left.kind = .leftBrace ∧ right.kind = .rightBrace ∧ (left :: between ++ [right]) <:+: row ∧
      Balanced between) ∧ MatchedAll row ts
/-- The same for every tree of a row. -/
def MatchedAll (row : List Token) : List Tree → Prop
  | [] => True
  | t :: ts => Matched row t ∧ MatchedAll row ts
end

variable {row : List Token}

@[simp] theorem matchedAll_nil : MatchedAll row [] := trivial

@[simp] theorem matchedAll_cons (t : Tree) (ts : List Tree) :
    MatchedAll row (t :: ts) ↔ t.Matched row ∧ MatchedAll row ts := Iff.rfl

@[simp] theorem matchedAll_append (ts us : List Tree) :
    MatchedAll row (ts ++ us) ↔ MatchedAll row ts ∧ MatchedAll row us := by
  induction ts with
  | nil => simp
  | cons t ts ih => simp [ih, and_assoc]

mutual
/-- In a tree without blocks all blocks match. -/
theorem Blockless.matched {t : Tree} (h : t.Blockless) : t.Matched row := by
  cases t with
  | leaf x => trivial
  | node p ts => exact ⟨fun hp => absurd hp h.1, BlocklessAll.matched h.2⟩
theorem BlocklessAll.matched {ts : List Tree} (h : BlocklessAll ts) : MatchedAll row ts := by
  cases ts with
  | nil => trivial
  | cons t ts => exact ⟨h.1.matched, h.2.matched⟩
end

mutual
/-- What is matched is matched inside too. -/
theorem Matched.subtrees {t : Tree} (h : t.Matched row) : ∀ b ∈ t.subtrees, b.Matched row := by
  cases t with
  | leaf x =>
    intro b hb
    rw [List.mem_singleton.mp hb]
    trivial
  | node p ts =>
    intro b hb
    rcases List.mem_cons.mp hb with rfl | hb
    · exact h
    · exact MatchedAll.subtreesOf h.2 b hb
/-- In all parts of matched trees the blocks match. -/
theorem MatchedAll.subtreesOf {ts : List Tree} (h : MatchedAll row ts) :
    ∀ b ∈ subtreesOf ts, b.Matched row := by
  cases ts with
  | nil => exact nofun
  | cons t ts =>
    intro b hb
    rcases List.mem_append.mp hb with hb | hb
    · exact h.1.subtrees b hb
    · exact h.2.subtreesOf b hb
end

end Tree

/-! ## Parsers of balanced tokens -/

/-- An outcome of parsing at the given tokens, where balanced tokens were taken for what was found,
and also by what failed if any tokens are left. -/
def Outcome.Balances {α : Type} (P : α → Prop) (tokens : List Token) : Outcome α → Prop
  | .found a next => (∃ taken, tokens = taken ++ next.rest ∧ Balanced taken) ∧ P a
  | .failed _ next => ∃ taken, tokens = taken ++ next.rest ∧ (Balanced taken ∨ next.rest = [])

namespace Recovering

open LessCss.Tree

variable {α β : Type} {row : List Token} {bound : Nat}

theorem pure_apply (a : α) (c : Cursor) : (Pure.pure a : Recovering α) c = ⟨[], .found a c⟩ := rfl

theorem lift_apply (p : Parser α) (c : Cursor) : (p : Recovering α) c = ⟨[], p c⟩ := rfl

/-- A recovering parser behind another one adds what it notes to what was noted. -/
theorem bind_apply (p : Recovering α) (f : α → Recovering β) (c : Cursor) :
    (p >>= f) c =
      match p c with
      | ⟨noted, .found a next⟩ => ⟨noted ++ (f a next).noted, (f a next).outcome⟩
      | ⟨noted, .failed m next⟩ => ⟨noted, .failed m next⟩ := rfl

/-- At every place in a row of tokens with no more than `bound` tokens behind it, a parser takes
balanced tokens, and what it finds satisfies `P`. -/
def Balances (row : List Token) (bound : Nat) (p : Recovering α) (P : α → Prop) : Prop :=
  ∀ c, c.rest <:+ row → c.rest.length ≤ bound → (p c).outcome.Balances P c.rest

namespace Balances

variable {P : α → Prop} {Q : β → Prop}

theorem pure {a : α} (h : P a) : Balances row bound (Pure.pure a) P :=
  fun _ _ _ => ⟨⟨[], rfl, rfl⟩, h⟩

theorem lift {p : Parser α} (h : p.Avoids braces P) : Balances row bound (ofParser p) P := by
  intro c _ _
  have hc := h c
  change Outcome.Balances P c.rest (p c)
  cases hp : p c with
  | found a next =>
    rw [hp] at hc
    obtain ⟨⟨taken, hrest, htaken⟩, ha⟩ := hc
    exact ⟨⟨taken, hrest, .of_avoiding htaken⟩, ha⟩
  | failed m next =>
    rw [hp] at hc
    obtain ⟨taken, hrest, htaken⟩ := hc
    exact ⟨taken, hrest, .inl (.of_avoiding htaken)⟩

/-- One parser behind another takes balanced tokens if both do. -/
theorem bind {p : Recovering α} {f : α → Recovering β} (hp : Balances row bound p P)
    (hf : ∀ a, P a → Balances row bound (f a) Q) : Balances row bound (p >>= f) Q := by
  intro c hrow hbound
  have hc := hp c hrow hbound
  rcases h : p c with ⟨noted, outcome⟩
  rw [h] at hc
  cases outcome with
  | failed m next =>
    rw [bind_of_failed h]
    exact hc
  | found a next =>
    obtain ⟨⟨taken, hrest, htaken⟩, ha⟩ := hc
    have hsuffix : next.rest <:+ c.rest := ⟨taken, hrest.symm⟩
    have hnext := hf a ha next (hsuffix.trans hrow) (hsuffix.length_le.trans hbound)
    rw [bind_of_found h]
    dsimp only
    cases hfa : (f a next).outcome with
    | failed m last =>
      rw [hfa] at hnext
      obtain ⟨more, hmore, hbalanced⟩ := hnext
      exact ⟨taken ++ more, by rw [hrest, hmore, List.append_assoc],
        hbalanced.imp_left htaken.append⟩
    | found b last =>
      rw [hfa] at hnext
      obtain ⟨⟨more, hmore, hbalanced⟩, hb⟩ := hnext
      exact ⟨⟨taken ++ more, by rw [hrest, hmore, List.append_assoc], htaken.append hbalanced⟩, hb⟩

/-- A parser that takes no braces may stand before one that takes balanced tokens. -/
theorem lift_bind {p : Parser α} {f : α → Recovering β} (hp : p.Avoids braces P)
    (hf : ∀ a, P a → Balances row bound (f a) Q) :
    Balances row bound ((p : Recovering α) >>= f) Q :=
  (lift hp).bind hf

theorem here_bind {f : Cursor → Recovering β} (hf : ∀ c, Balances row bound (f c) Q) :
    Balances row bound (((Parser.here : Parser Cursor) : Recovering Cursor) >>= f) Q :=
  fun c hrow hbound => hf c c hrow hbound

theorem fail (phrase : Phrase) (wanted : KindSet) :
    Balances row bound (ofParser (Parser.fail phrase wanted)) P := fun _ _ _ => ⟨[], rfl, .inl rfl⟩

/-- A phrase without blocks of its own. -/
theorem lift_tree {p : Parser Tree} (h : p.Avoids braces Blockless) :
    Balances row bound (ofParser p) (Matched row) :=
  lift (h.imp fun _ ht => ht.matched)

theorem lift_row {p : Parser (List Tree)} (h : p.Avoids braces BlocklessAll) :
    Balances row bound (ofParser p) (MatchedAll row) :=
  lift (h.imp fun _ hts => hts.matched)

/-- A phrase other than a block is matched if its parts are. -/
theorem node {phrase : Phrase} {p : Recovering (List Tree)} (hphrase : phrase ≠ .block)
    (hp : Balances row bound p (MatchedAll row)) :
    Balances row bound (Parser.recoveringNode phrase p) (Matched row) :=
  hp.bind fun _ hts => pure ⟨fun h => absurd h hphrase, hts⟩

/-- A row of one tree. -/
theorem single {p : Recovering Tree} (hp : Balances row bound p (Matched row)) :
    Balances row bound (do return [← p] : Recovering (List Tree)) (MatchedAll row) :=
  hp.bind fun _ ht => pure ⟨ht, trivial⟩

end Balances

end Recovering

namespace Parser

open LessCss.Tree Recovering

/-! ## Statements -/

section Statements

variable {row : List Token} {bound : Nat} {block : Recovering Tree}
  (hblock : Balances row bound block (Matched row))

include hblock

theorem afterSelectors_balances (selectors : Tree) :
    Balances row bound (afterSelectors block selectors) (MatchedAll row) := by
  have hending : (ending .rulesetOrMixin).Avoids braces BlocklessAll := ending_avoids _
  refine .here_bind fun c => ?_
  split
  · refine Balances.lift_bind arguments_avoids fun args hargs => .here_bind fun c => ?_
    split
    · refine Balances.lift_bind (guard_avoids.mono (List.subset_cons_self _ _))
        fun guard hguard => ?_
      exact hblock.bind fun b hb => .pure (by simp [hargs.matched, hguard.matched, hb])
    · split
      · exact hblock.bind fun b hb => .pure (by simp [hargs.matched, hb])
      · exact Balances.lift_bind hending fun rest hrest => .pure ⟨hargs.matched, hrest.matched⟩
  · split
    · exact Balances.lift_bind (Avoids.expect _ (by decide)) fun semicolon h =>
        .pure (by simp [h.matched])
    · split
      · exact .lift_row hending
      · split
        · exact .single hblock
        · exact .fail _ _

/-- A rule set or a mixin takes balanced tokens, if its block does. -/
theorem rulesetOrMixin_balances : Balances row bound (rulesetOrMixin block) (Matched row) := by
  refine .node (by decide) ?_
  refine Balances.lift_bind (selectorList_avoids.mono (List.subset_cons_self _ _))
    fun selectors hselectors => ?_
  exact (afterSelectors_balances hblock selectors).bind fun rest hrest =>
    .pure ⟨hselectors.matched, hrest⟩

theorem mediaRule_balances : Balances row bound (mediaRule block) (Matched row) := by
  refine .node (by decide) (Balances.lift_bind (Avoids.expect _ (by decide)) fun head hhead => ?_)
  refine Balances.lift_bind (mediaList_avoids.mono (List.subset_cons_self _ _))
    fun queries hqueries => ?_
  exact hblock.bind fun b hb => .pure (by simp [hhead.matched, hqueries.matched, hb])

theorem generalAtRule_balances : Balances row bound (generalAtRule block) (Matched row) := by
  refine .node (by decide) (Balances.lift_bind (Avoids.expect _ (by decide)) fun head hhead => ?_)
  refine Balances.lift_bind (atRulePrelude_avoids.mono (List.subset_cons_self _ _))
    fun content hcontent => ?_
  refine .here_bind fun c => ?_
  split
  · refine Balances.lift_bind (Avoids.expect _ (by decide)) fun semicolon hsemicolon => .pure ?_
    simp [hhead.matched, hcontent.matched, hsemicolon.matched]
  · exact hblock.bind fun b hb => .pure (by simp [hhead.matched, hcontent.matched, hb])

/-- An at-rule takes balanced tokens, if its block does. -/
theorem atRule_balances : Balances row bound (atRule block) (Matched row) := by
  refine .node (by decide) (.here_bind fun c => ?_)
  split
  · exact .single (.lift_tree importRule_avoids)
  · exact .single (.lift_tree pluginRule_avoids)
  · exact .single (mediaRule_balances hblock)
  · exact .single (generalAtRule_balances hblock)
  · exact .fail _ _

/-- A statement takes balanced tokens, if the blocks in it do. -/
theorem statement_balances (inBlock : Bool) :
    Balances row bound (statement block inBlock) (Matched row) := by
  refine .here_bind fun c => ?_
  split
  · exact .lift_tree assignment_avoids
  · split
    · exact atRule_balances hblock
    · have hearly :
          (if inBlock && startsHere c .declaration then attempt declaration else give none).Avoids
          braces fun early => ∀ t, early = some t → t.Blockless := by
        split
        · exact declaration_avoids.attempt
        · exact .pure nofun
      refine Balances.lift_bind hearly fun early hearly => ?_
      cases early with
      | some t => exact .pure (hearly t rfl).matched
      | none =>
        dsimp only
        split
        · exact rulesetOrMixin_balances hblock
        · exact .fail _ _

end Statements

/-! ## Rows of statements -/

/-- What is skipped behind a mismatch closes the braces that it opens, and those that were open
before, unless the tokens end first. -/
theorem resumeFrom_balanced (ts : List Token) : ∀ depth previous,
    ∃ skipped, ts = skipped ++ (resumeFrom depth previous ts).rest ∧
      (openBraces depth skipped = some 0 ∨ (resumeFrom depth previous ts).rest = []) := by
  induction ts with
  | nil => exact fun depth previous => ⟨[], rfl, .inr rfl⟩
  | cons t ts ih =>
    intro depth previous
    -- one more token is skipped, and with it `opened` braces are open
    have honward (opened : Nat)
        (ht : ∀ skipped, openBraces depth (t :: skipped) = openBraces opened skipped) :
        ∃ skipped, t :: ts = skipped ++ (resumeFrom opened (some t) ts).rest ∧
          (openBraces depth skipped = some 0 ∨ (resumeFrom opened (some t) ts).rest = []) := by
      obtain ⟨skipped, hts, hskipped⟩ := ih opened (some t)
      refine ⟨t :: skipped, congrArg (t :: ·) hts, ?_⟩
      rwa [ht skipped]
    unfold resumeFrom
    split
    · rename_i h
      exact ⟨[t], rfl, .inl (openBraces_other (by rw [h]; decide) 0 [])⟩
    · rename_i h
      exact honward _ fun skipped => openBraces_left h _ skipped
    · exact ⟨[], rfl, .inl rfl⟩
    · rename_i h
      exact ⟨[t], rfl, .inl (openBraces_right h 0 [])⟩
    · rename_i d h
      exact honward _ fun skipped => openBraces_right h (d + 1) skipped
    · rename_i d _ _ hleft _ hzero hone hmore
      refine honward _ fun skipped => openBraces_other ?_ _ skipped
      simp only [braces, List.mem_cons, List.not_mem_nil, or_false, not_or]
      refine ⟨hleft, fun hright => ?_⟩
      rcases d with _ | _ | d
      · exact hzero hright rfl
      · exact hone hright rfl
      · exact hmore d hright rfl

/-- What is skipped behind a mismatch is balanced, unless the tokens end before. -/
theorem resume_balanced (c : Cursor) :
    ∃ skipped, c.rest = skipped ++ (resume c).rest ∧ (Balanced skipped ∨ (resume c).rest = []) :=
  resumeFrom_balanced c.rest 0 c.previous

/-- Recovery goes on: behind a statement that fails at a token other than a closing brace, fewer
tokens are left. -/
theorem length_resume_lt {c next : Cursor} {t : Token} {ts : List Token} (hc : c.rest = t :: ts)
    (ht : t.kind ≠ .rightBrace) (hnext : next.rest <:+ c.rest) :
    (resume next).rest.length < c.rest.length := by
  have hresume := (resume_suffix next).length_le
  by_cases hlt : next.rest.length < c.rest.length
  · omega
  · -- the statement took nothing, and recovery skips its first token
    have hsame : next.rest = t :: ts := by
      rw [← hc]
      exact hnext.eq_of_length_le (Nat.le_of_not_lt hlt)
    have hskip : (resume next).rest <:+ ts := by
      have honward (depth : Nat) : (resumeFrom depth (some t) ts).rest <:+ ts := by
        obtain ⟨skipped, hts, _⟩ := resumeFrom_balanced ts depth (some t)
        exact ⟨skipped, hts.symm⟩
      rw [resume, hsame]
      unfold resumeFrom
      split
      · exact List.suffix_rfl
      · exact honward _
      · contradiction
      · contradiction
      · contradiction
      · exact honward _
    have := hskip.length_le
    rw [hc, List.length_cons]
    omega

section Rows

variable {row : List Token} {bound : Nat} {statement : Recovering Tree}
  (hstatement : Balances row bound statement (Matched row))

include hstatement

/-- The blocks in a row of statements match, inside of blocks and outside. -/
theorem bodyWithin_matched (inBlock : Bool) (rounds : Nat) {c : Cursor} (hrow : c.rest <:+ row)
    (hbound : c.rest.length ≤ bound) :
    MatchedAll row (bodyWithin statement inBlock rounds c).statements := by
  fun_induction bodyWithin statement inBlock rounds c with
  | case1 c => trivial
  | case2 rounds c hrest => trivial
  | case3 rounds c t ts hrest ht => trivial
  | case4 rounds c t ts hrest ht _ body ih =>
    have hsuffix : ts <:+ c.rest := hrest ▸ List.suffix_cons t ts
    exact ih (hsuffix.trans hrow) (hsuffix.length_le.trans hbound)
  | case5 rounds c t ts hrest ht noted tree next hfound body ih =>
    have hc := hstatement c hrow hbound
    rw [hfound] at hc
    obtain ⟨⟨taken, htaken, _⟩, htree⟩ := hc
    have hsuffix : next.rest <:+ c.rest := ⟨taken, htaken.symm⟩
    exact ⟨htree, ih (hsuffix.trans hrow) (hsuffix.length_le.trans hbound)⟩
  | case6 rounds c t ts hrest ht noted m next hfailed body ih =>
    have hc := hstatement c hrow hbound
    rw [hfailed] at hc
    obtain ⟨taken, htaken, _⟩ := hc
    have hsuffix := (resume_suffix next).trans ⟨taken, htaken.symm⟩
    exact ih (hsuffix.trans hrow) (hsuffix.length_le.trans hbound)

/-- Inside of a block, statements and what is skipped between them are balanced, and they end before
a closing brace, unless the tokens end. -/
theorem bodyWithin_balanced (rounds : Nat) {c : Cursor} (hrow : c.rest <:+ row)
    (hbound : c.rest.length ≤ bound) (hrounds : c.rest.length ≤ rounds)
    (htakes : ∀ d, (statement d).outcome.Within d.rest fun taken _ => taken ≠ []) :
    ∃ taken, c.rest = taken ++ (bodyWithin statement true rounds c).next.rest ∧
      ((bodyWithin statement true rounds c).next.rest = [] ∨
        Balanced taken ∧ (bodyWithin statement true rounds c).next.isAt .rightBrace = true) := by
  -- behind balanced tokens the row goes on
  have hbehind {c d : Cursor} {body : Body} {taken : List Token} (hc : c.rest = taken ++ d.rest)
      (htaken : Balanced taken ∨ d.rest = [])
      (h : ∃ more, d.rest = more ++ body.next.rest ∧
        (body.next.rest = [] ∨ Balanced more ∧ body.next.isAt .rightBrace = true)) :
      ∃ taken, c.rest = taken ++ body.next.rest ∧
        (body.next.rest = [] ∨ Balanced taken ∧ body.next.isAt .rightBrace = true) := by
    obtain ⟨more, hd, hmore⟩ := h
    refine ⟨taken ++ more, by rw [hc, hd, List.append_assoc], ?_⟩
    rcases htaken with htaken | hnil
    · exact hmore.imp_right fun ⟨hbalanced, hat⟩ => ⟨htaken.append hbalanced, hat⟩
    · rw [hnil] at hd
      exact .inl (List.append_eq_nil_iff.mp hd.symm).2
  fun_induction bodyWithin statement true rounds c with
  | case1 c => exact ⟨[], rfl, .inl (List.length_eq_zero_iff.mp (Nat.le_zero.mp hrounds))⟩
  | case2 rounds c hrest => exact ⟨[], rfl, .inl hrest⟩
  | case3 rounds c t ts hrest ht =>
    refine ⟨[], rfl, .inr ⟨rfl, ?_⟩⟩
    simp [Cursor.isAt, Cursor.kind?, Cursor.next?, hrest, ht]
  | case4 rounds c t ts hrest ht hblock body ih => exact absurd rfl hblock
  | case5 rounds c t ts hrest ht noted tree next hfound body ih =>
    have hc := hstatement c hrow hbound
    have htook := htakes c
    rw [hfound] at hc htook
    obtain ⟨⟨taken, htaken, hbalanced⟩, _⟩ := hc
    obtain ⟨taken', htaken', hne⟩ := htook
    have hpos := List.length_pos_iff.mpr hne
    have hlength := congrArg List.length htaken'
    rw [List.length_append] at hlength
    have hsuffix : next.rest <:+ c.rest := ⟨taken, htaken.symm⟩
    exact hbehind htaken (.inl hbalanced)
      (ih (hsuffix.trans hrow) (hsuffix.length_le.trans hbound) (by omega))
  | case6 rounds c t ts hrest ht noted m next hfailed body ih =>
    have hc := hstatement c hrow hbound
    rw [hfailed] at hc
    obtain ⟨taken, htaken, hbalanced⟩ := hc
    obtain ⟨skipped, hskipped, hskip⟩ := resume_balanced next
    have hnext : next.rest <:+ c.rest := ⟨taken, htaken.symm⟩
    have hlt := length_resume_lt hrest ht hnext
    have hsuffix := (resume_suffix next).trans hnext
    have hboth : Balanced (taken ++ skipped) ∨ (resume next).rest = [] := by
      rcases hbalanced with hbalanced | hnil
      · exact hskip.imp_left hbalanced.append
      · rw [hnil] at hskipped
        exact .inr (List.append_eq_nil_iff.mp hskipped.symm).2
    refine hbehind (d := resume next)
      (by rw [htaken, hskipped, List.append_assoc, ← hskipped]) hboth ?_
    exact ih (hsuffix.trans hrow) (hsuffix.length_le.trans hbound) (by omega)

end Rows

/-! ## Blocks -/

/-- A token of the wanted kind is taken, or nothing is. -/
theorem expect_cases (phrase : Phrase) (k : Kind) (c : Cursor) :
    (∃ t ts, c.rest = t :: ts ∧ t.kind = k ∧ expect phrase k c = .found (.leaf t) ⟨some t, ts⟩) ∨
      c.isAt k = false ∧ expect phrase k c = .failed ⟨phrase, .ofList [k], c.next?⟩ c := by
  unfold expect take Cursor.isAt Cursor.kind? Cursor.next?
  cases hrest : c.rest with
  | nil => exact .inr ⟨rfl, rfl⟩
  | cons t ts =>
    by_cases ht : t.kind = k
    · exact .inl ⟨t, ts, rfl, ht, by simp [ht]⟩
    · exact .inr ⟨by simpa using ht, by simp [ht]⟩

/-- A block does not start here. -/
theorem blockWithin_of_not_left (bound : Nat) {c : Cursor} (h : c.isAt .leftBrace = false) :
    blockWithin bound c = ⟨[], .failed ⟨.block, .ofList [.leftBrace], c.next?⟩ c⟩ := by
  have hfailed : expect .block .leftBrace c = .failed
      ⟨.block, .ofList [.leftBrace], c.next?⟩ c := by
    rcases expect_cases .block .leftBrace c with ⟨t, ts, hrest, ht, _⟩ | ⟨_, hfailed⟩
    · simp [Cursor.isAt, Cursor.kind?, Cursor.next?, hrest, ht] at h
    · exact hfailed
  cases bound <;> simp only [blockWithin, recoveringNode, bind_apply, lift_apply, hfailed]

/-- A block that starts here goes through the brace behind its statements. -/
theorem blockWithin_of_left (bound : Nat) {c : Cursor} {left : Token} {ts : List Token}
    (hrest : c.rest = left :: ts) (hleft : left.kind = .leftBrace) :
    blockWithin (bound + 1) c =
      let inner := body (statement (blockWithin bound) true) true ⟨some left, ts⟩
      ⟨inner.noted,
        match expect .block .rightBrace inner.next with
        | .found right last =>
          .found (.node .block [.leaf left, .node .statements inner.statements, right]) last
        | .failed m last => .failed m last⟩ := by
  have hfound : expect .block .leftBrace c = .found (.leaf left) ⟨some left, ts⟩ := by
    simp [expect, take, hrest, hleft]
  simp only [blockWithin, recoveringNode, bind_apply, lift_apply, hfound, bodyTree, pure_apply]
  cases expect .block .rightBrace (body (statement (blockWithin bound) true) true
    ⟨some left, ts⟩).next <;> simp

/-- A block takes balanced tokens: its braces, and what is between them. -/
theorem blockWithin_balances (row : List Token) (bound : Nat) :
    Balances row bound (blockWithin bound) (Matched row) := by
  induction bound with
  | zero =>
    intro c _ hbound
    have hnil : c.rest = [] := List.length_eq_zero_iff.mp (Nat.le_zero.mp hbound)
    rw [blockWithin_of_not_left 0 (Cursor.isAt_of_rest_nil hnil _)]
    exact ⟨[], rfl, .inl rfl⟩
  | succ bound ih =>
    intro c hrow hbound
    cases hat : c.isAt .leftBrace with
    | false =>
      rw [blockWithin_of_not_left (bound + 1) hat]
      exact ⟨[], rfl, .inl rfl⟩
    | true =>
      obtain ⟨left, ts, hrest, hleft⟩ := Cursor.exists_of_isAt hat
      have hts : ts <:+ row := (hrest ▸ List.suffix_cons left ts).trans hrow
      have hlength : ts.length ≤ bound := by
        rw [hrest, List.length_cons] at hbound
        omega
      have hstatement := statement_balances ih true
      have htakes (d : Cursor) : ((statement (blockWithin bound) true) d).outcome.Within d.rest
          fun taken _ => taken ≠ [] :=
        (statement_takes (blockWithin_takes bound) true d).mono fun _ _ h => h.nonempty
      have hmatched :=
        bodyWithin_matched hstatement true ts.length (c := ⟨some left, ts⟩) hts hlength
      obtain ⟨taken, htaken, hend⟩ :=
        bodyWithin_balanced hstatement ts.length (c := ⟨some left, ts⟩) hts hlength
          (Nat.le_refl _) htakes
      rw [blockWithin_of_left bound hrest hleft]
      dsimp only [body]
      generalize bodyWithin _ true _ ⟨some left, ts⟩ = inner at hmatched htaken hend ⊢
      rcases expect_cases .block .rightBrace inner.next with ⟨right, us, hus, hright,
          hfound⟩ | ⟨hat, hfailed⟩
      · rw [hfound]
        have hinner : ts = taken ++ right :: us := by
          rw [← hus]
          exact htaken
        have hbalanced : Balanced taken := by
          rcases hend with hnil | h
          · exact absurd (hus.symm.trans hnil) (List.cons_ne_nil _ _)
          · exact h.1
        have hsplit : c.rest = (left :: taken ++ [right]) ++ us := by simp [hrest, hinner]
        refine ⟨⟨_, hsplit, hbalanced.enclosed hleft hright⟩, fun _ => ?_, ?_⟩
        · refine ⟨left, [_], right, taken, rfl, hleft, hright, ?_, hbalanced⟩
          exact (hsplit ▸ (List.prefix_append _ us).isInfix).trans hrow.isInfix
        · exact ⟨trivial, ⟨nofun, hmatched⟩, trivial, trivial⟩
      · rw [hfailed]
        refine ⟨left :: taken, by rw [hrest, List.cons_append]; exact congrArg _ htaken, .inr ?_⟩
        -- the statements end before a closing brace or with the tokens
        exact hend.resolve_right fun h => Bool.false_ne_true (hat.symm.trans h.2)

end Parser

namespace Parse

open LessCss.Parser LessCss.Tree

/-- **The braces of every block match, whatever went wrong around it.**  A block anywhere in a
parse, also of a text with mismatches, starts with an opening brace and ends with a closing one, and
the tokens of the text between the two are balanced. -/
theorem matched_ofText (source : String) (b : Tree) (hb : b ∈ (ofText source).tree.subtrees)
    (hblock : b.phrase? = some .block) :
    ∃ left inner right before between behind, b.children = .leaf left :: inner ++ [.leaf right] ∧
      left.kind = .leftBrace ∧ right.kind = .rightBrace ∧
      (Lexing.ofText source).tokens = before ++ left :: between ++ right :: behind ∧
      Balanced between := by
  have hbody := bodyWithin_matched (statement_balances (blockWithin_balances _ _) false) false
    (Lexing.ofText source).tokens.length (c := ⟨none, (Lexing.ofText source).tokens⟩)
      List.suffix_rfl
    (Nat.le_refl _)
  have htree : (ofText source).tree.Matched (Lexing.ofText source).tokens := ⟨nofun, hbody⟩
  have hmatched := htree.subtrees b hb
  cases b with
  | leaf x => cases hblock
  | node p ts =>
    obtain ⟨left, inner, right, between, hts, hleft, hright, ⟨before, behind, hinfix⟩, hbalanced⟩ :=
      hmatched.1 (Option.some.inj hblock)
    exact ⟨left, inner, right, before, between, behind, hts, hleft, hright, by simp [← hinfix],
      hbalanced⟩

/-- A block in which a statement does not fit: what is skipped there opens and closes a brace. -/
theorem matched_ofText_recovered :
    (ofText ".a { b c) { d: 1 } .e { f: g; } }").mismatches.isEmpty = false ∧
      ∃ b ∈ (ofText ".a { b c) { d: 1 } .e { f: g; } }").tree.subtrees, b.phrase? = some .block ∧
        ∃ left inner right before between behind, b.children = .leaf left :: inner ++
        [.leaf right] ∧
          left.kind = .leftBrace ∧ right.kind = .rightBrace ∧
          (Lexing.ofText ".a { b c) { d: 1 } .e { f: g; } }").tokens =
            before ++ left :: between ++ right :: behind ∧ Balanced between := by
  have hany : (ofText ".a { b c) { d: 1 } .e { f: g; } }").tree.subtrees.any
      (·.phrase? == some .block) = true := by decide +kernel
  obtain ⟨b, hb, hphrase⟩ := List.any_eq_true.mp hany
  have hblock : b.phrase? = some .block := by simpa using hphrase
  exact ⟨by decide +kernel, b, hb, hblock, matched_ofText _ b hb hblock⟩

end Parse

end LessCss
