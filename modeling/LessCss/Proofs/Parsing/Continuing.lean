import LessCss.Proofs.Parsing.Fidelity
import LessCss.Proofs.Parsing.Mirrored

/-!
# Statements in a text that goes on

A statement ends with a semicolon or a closing brace.  In a text that goes on behind the end of
another one, a statement of the other text that was found without complaint is found again
(`Transfer.Finishes`): up to its last token there is a brace or semicolon to come, and behind that
token it does not look.  Where the text does not go on, failures and the mismatches that are noted
are the same as well, and so is what is skipped behind a failure (`Parser.resume_mirrors`).

Arguments are separated by semicolons, and are therefore the one phrase behind which nothing may be
to come even if something was before.  They are the same if something is to come behind them
(`Transfer.Reaches`).
-/

namespace LessCss

/-! ## Phrases that end -/

/-- A parser finds something only where a brace or semicolon is to come. -/
def Parser.Ends {α : Type} (p : Parser α) : Prop :=
  ∀ c a next, p c = .found a next → ∃ t ∈ c.rest, t.kind ∈ stops

/-- The same for recovering parsers. -/
def Recovering.Ends {α : Type} (p : Recovering α) : Prop :=
  ∀ c a next, (p c).outcome = .found a next → ∃ t ∈ c.rest, t.kind ∈ stops

/-- A parser that finds something does not go back. -/
theorem Parser.Takes.suffix {α : Type} {p : Parser α} {P : List Token → α → Prop} (hp : p.Takes P)
    {c next : Cursor} {a : α} (h : p c = .found a next) : next.rest <:+ c.rest := by
  have hc := hp c
  rw [h] at hc
  obtain ⟨taken, htaken, _⟩ := hc
  exact ⟨taken, htaken.symm⟩

namespace Parser

variable {α β : Type}

namespace Ends

/-- What is found only where a brace or semicolon is to come stays so with anything behind it. -/
theorem bind {p : Parser α} {f : α → Parser β} (hp : p.Ends) : (p >>= f).Ends := by
  intro c b last h
  obtain ⟨a, next, hfound, _⟩ := exists_found_of_bind h
  exact hp c a next hfound

/-- What is to come behind a phrase is to come before it. -/
theorem after {p : Parser α} {f : α → Parser β} {P : List Token → α → Prop} (hp : p.Takes P)
    (hf : ∀ a, (f a).Ends) : (p >>= f).Ends := by
  intro c b last h
  obtain ⟨a, next, hfound, hlast⟩ := exists_found_of_bind h
  obtain ⟨t, ht, hkind⟩ := hf a next b last hlast
  exact ⟨t, (hp.suffix hfound).subset ht, hkind⟩

theorem here_bind {f : Cursor → Parser β} (hf : ∀ c, (f c).Ends) : (Parser.here >>= f).Ends :=
  fun c => hf c c

/-- A brace or semicolon is found only where one is to come. -/
theorem expect (phrase : Phrase) {k : Kind} (hk : k ∈ stops) : (Parser.expect phrase k).Ends := by
  intro c a next h
  have hc := Takes.take phrase (.ofList [k]) c
  rw [show Parser.take phrase (.ofList [k]) c = _ from h] at hc
  obtain ⟨taken, hrest, t, rfl, _, ht⟩ := hc
  have hkind : t.kind = k := by simpa using ht
  exact ⟨t, by simp [hrest], hkind ▸ hk⟩

end Ends

theorem ending_ends (phrase : Phrase) : (ending phrase).Ends := by
  refine .after (Takes.accept _ _) fun important => ?_
  intro c a next h
  by_cases hat : c.isAt .rightBrace = true
  · obtain ⟨t, ts, hrest, ht⟩ := Cursor.exists_of_isAt hat
    exact ⟨t, by simp [hrest], by rw [ht]; decide⟩
  · change (if c.isAt .rightBrace then _ else _ : Parser (List Tree)) c = _ at h
    rw [if_neg hat] at h
    exact (Ends.expect phrase (k := .semicolon) (by decide)).bind c a next h

theorem declaration_ends : declaration.Ends := by
  refine .bind (.after name_takes fun property => .after (Takes.expect _ _) fun colon => ?_)
  exact .after value_takes fun content => .bind (ending_ends _)

theorem assignment_ends : assignment.Ends := by
  refine .bind (.after (Takes.expect _ _) fun head => .after (Takes.expect _ _) fun colon => ?_)
  exact .after value_takes fun content => .bind (ending_ends _)

theorem importRule_ends : importRule.Ends := by
  refine .bind (.after (Takes.expect _ _) fun head => .after importOptions_takes fun options => ?_)
  refine .after (Takes.take _ _) fun path => .here_bind fun c => ?_
  have hlast (media : List Tree) : (do
      let semicolon ← expect .importRule .semicolon
      return head :: options ++ path :: media ++ [semicolon] : Parser (List Tree)).Ends :=
    .bind (.expect _ (by decide))
  split
  · exact .after mediaList_takes fun query => hlast [query]
  · exact hlast []

theorem pluginRule_ends : pluginRule.Ends := by
  refine .bind (.after (Takes.expect _ _) fun head => .after pluginArguments_takes fun args => ?_)
  exact .after (Takes.take _ _) fun path => .bind (.expect _ (by decide))

end Parser

namespace Recovering

variable {α β : Type}

namespace Ends

theorem bind {p : Recovering α} {f : α → Recovering β} (hp : p.Ends) : (p >>= f).Ends := by
  intro c b last h
  obtain ⟨a, next, hfound, _⟩ := exists_found_of_bind h
  exact hp c a next hfound

theorem lift {p : Parser α} (hp : p.Ends) : (ofParser p).Ends := hp

/-- What is to come behind a phrase is to come before it. -/
theorem after {p : Parser α} {f : α → Recovering β} {P : List Token → α → Prop} (hp : p.Takes P)
    (hf : ∀ a, (f a).Ends) : ((p : Recovering α) >>= f).Ends := by
  intro c b last h
  obtain ⟨a, next, hfound, hlast⟩ := exists_found_of_bind h
  obtain ⟨t, ht, hkind⟩ := hf a next b last hlast
  exact ⟨t, (hp.suffix hfound).subset ht, hkind⟩

theorem here_bind {f : Cursor → Recovering β} (hf : ∀ c, (f c).Ends) :
    (((Parser.here : Parser Cursor) : Recovering Cursor) >>= f).Ends := fun c => hf c c

theorem fail (phrase : Phrase) (wanted : KindSet) :
    (ofParser (Parser.fail phrase wanted : Parser α)).Ends := by
  intro c a next h
  cases h

end Ends

end Recovering

namespace Parser

open Recovering

/-- What stands behind the arguments of a mixin that is defined or called. -/
def afterArguments (block : Recovering Tree) (args : Tree) : Recovering (List Tree) := do
  let c ← (here : Parser Cursor)
  if c.isAt .when then
    let condition ← (guard : Parser Tree)
    return [args, condition, ← block]
  else if c.isAt .leftBrace then return [args, ← block]
  else return args :: (← (ending .rulesetOrMixin : Parser (List Tree)))

section Blocks

variable {block : Recovering Tree} (hblock : block.Ends)

include hblock

/-- What stands behind arguments is found only where a brace or semicolon is to come. -/
theorem afterArguments_ends (args : Tree) : (afterArguments block args).Ends := by
  refine .here_bind fun c => ?_
  split
  · exact .after guard_takes fun condition => .bind hblock
  · split
    · exact .bind hblock
    · exact .bind (.lift (ending_ends _))

/-- What stands behind selectors is found only where a brace or semicolon is to come. -/
theorem afterSelectors_ends (selectors : Tree) : (afterSelectors block selectors).Ends := by
  refine .here_bind fun c => ?_
  split
  · exact .after arguments_takes fun args => afterArguments_ends hblock args
  · split
    · exact .bind (.lift (.expect _ (by decide)))
    · split
      · exact .lift (ending_ends _)
      · split
        · exact .bind hblock
        · exact .fail _ _

theorem rulesetOrMixin_ends : (rulesetOrMixin block).Ends :=
  .bind (.after selectorList_takes fun selectors => .bind (afterSelectors_ends hblock selectors))

theorem mediaRule_ends : (mediaRule block).Ends :=
  .bind (.after (Takes.expect _ _) fun _ => .after mediaList_takes fun _ => .bind hblock)

theorem generalAtRule_ends : (generalAtRule block).Ends := by
  refine .bind (.after (Takes.expect _ _) fun head => .after atRulePrelude_takes fun content => ?_)
  refine .here_bind fun c => ?_
  split
  · exact .bind (.lift (.expect _ (by decide)))
  · exact .bind hblock

theorem atRule_ends : (atRule block).Ends := by
  refine .bind (.here_bind fun c => ?_)
  split
  · exact .bind (.lift importRule_ends)
  · exact .bind (.lift pluginRule_ends)
  · exact .bind (mediaRule_ends hblock)
  · exact .bind (generalAtRule_ends hblock)
  · exact .fail _ _

/-- A statement is found only where a brace or semicolon is to come, if the blocks in it are. -/
theorem statement_ends (inBlock : Bool) : (statement block inBlock).Ends := by
  refine .here_bind fun c => ?_
  split
  · exact .lift assignment_ends
  · split
    · exact atRule_ends hblock
    · have hlate : (if startsHere c .rulesetOrMixin then rulesetOrMixin block
          else (fail .statements (first .statements) : Parser Tree)).Ends := by
        split
        · exact rulesetOrMixin_ends hblock
        · exact .fail _ _
      intro d tree next hfound
      obtain ⟨early, place, hearly, hfound⟩ := Recovering.exists_found_of_bind hfound
      split at hearly
      · -- a declaration, or what is tried behind one that failed
        change attempt declaration d = _ at hearly
        cases hdeclaration : declaration d with
        | found t last => exact declaration_ends d t last hdeclaration
        | failed m last =>
          rw [attempt_of_failed hdeclaration] at hearly
          cases hearly
          exact hlate d tree next hfound
      · cases hearly
        exact hlate d tree next hfound

end Blocks

/-- A block is found only where a brace is to come. -/
theorem blockWithin_ends (bound : Nat) : (blockWithin bound).Ends := by
  cases bound with
  | zero => exact .bind (.bind (.lift (.expect _ (by decide))))
  | succ bound => exact .bind (.bind (.lift (.expect _ (by decide))))

end Parser

/-! ## Recovering parsers -/

namespace Transfer

variable {α β α' β' : Type} {x : Transfer} {near : Bool} {bound bound' : Nat} {h : α → α'}
  {k : β → β'}

/-- Results of recovering parsers correspond, and so does what was noted. -/
structure Repeats (x : Transfer) (h : α → α') (r : Recovered α) (r' : Recovered α') : Prop where
  noted : r'.noted = r.noted.map x.mismatch
  outcome : x.Alike h (x.At true) r.outcome r'.outcome

/-- What goes on behind outcomes that are alike repeats if it does where something was found. -/
theorem Alike.repeats_bind {mid : Cursor → Cursor → Prop} {p : Parser α} {q : Parser α'}
    {f : α → Recovering β} {g : α' → Recovering β'} {c d : Cursor} (hpq : x.Alike h mid (p c) (q d))
    (hfg : ∀ a next next', p c = .found a next → mid next next' →
      x.Repeats k (f a next) (g (h a) next')) :
    x.Repeats k (((p : Recovering α) >>= f) c) (((q : Recovering α') >>= g) d) := by
  generalize hp : p c = o at hpq
  generalize hq : q d = o' at hpq
  cases hpq with
  | found ha hnext =>
    subst ha
    rw [Recovering.lift_bind_of_found hp, Recovering.lift_bind_of_found hq]
    exact hfg _ _ _ hp hnext
  | failed hm hnext =>
    rw [Recovering.lift_bind_of_failed hp, Recovering.lift_bind_of_failed hq]
    exact ⟨rfl, .failed hm hnext⟩

/-- Two recovering parsers do the same; if the second text goes on, this is so where the first
parser finds something and notes nothing. -/
def Finishes (x : Transfer) (near : Bool) (bound : Nat) (h : α → α') (p : Recovering α)
    (q : Recovering α') :
    Prop :=
  ∀ c d, x.Fits near bound c d → (x.tail = [] ∨ ∃ a next, p c = ⟨[], .found a next⟩) →
    x.Repeats h (p c) (q d)

namespace Finishes

/-- What is done alike with up to some tokens is done alike with fewer. -/
theorem mono {p : Recovering α} {q : Recovering α'} (hpq : x.Finishes near bound h p q)
    (hbound : bound' ≤ bound) :
    x.Finishes near bound' h p q := fun c d hcd hgood => hpq c d (hcd.mono hbound) hgood

/-- Parsers that do the same do so when they may note mismatches as well. -/
theorem lift {p : Parser α} {q : Parser α'}
    (hpq : x.Mirrors (x.Fits near bound) (x.At true) h p q) :
    x.Finishes near bound h (Recovering.ofParser p) (Recovering.ofParser q) :=
  fun c d hcd _ => ⟨rfl, hpq c d hcd⟩

theorem fail (phrase : Phrase) (wanted : KindSet) :
    x.Finishes near bound h (Recovering.ofParser (Parser.fail phrase wanted))
      (Recovering.ofParser (Parser.fail phrase wanted)) := lift (.fail phrase wanted)

theorem here_bind {f : Cursor → Recovering β} {g : Cursor → Recovering β'}
    (hfg : ∀ c d, x.Fits near bound c d → x.Finishes near bound k (f c) (g d)) :
    x.Finishes near bound k (((Parser.here : Parser Cursor) : Recovering Cursor) >>= f)
      (((Parser.here : Parser Cursor) : Recovering Cursor) >>= g) :=
  fun c d hcd hgood => hfg c d hcd c d hcd hgood

/-- A step before the last one. -/
theorem lift_bind {p : Parser α} {q : Parser α'} {f : α → Recovering β} {g : α' → Recovering β'}
    (hpq : x.Mirrors (x.Fits near bound) (x.Fits true bound') h p q)
    (hfg : ∀ a, x.Finishes true bound' k (f a) (g (h a))) :
    x.Finishes near bound k ((p : Recovering α) >>= f) ((q : Recovering α') >>= g) := by
  intro c d hcd hgood
  refine (hpq c d hcd).repeats_bind fun a next next' hp hnext => hfg a next next' hnext ?_
  rwa [Recovering.lift_bind_of_found hp] at hgood

/-- What is found is put into something larger. -/
theorem map {p : Recovering α} {q : Recovering α'} {f : α → β} {g : α' → β'}
    (hpq : x.Finishes near bound h p q) (hfg : ∀ a, g (h a) = k (f a)) :
    x.Finishes near bound k (do return f (← p)) (do return g (← q)) := by
  intro c d hcd hgood
  have hc := hpq c d hcd
  rcases hp : p c with ⟨noted, outcome⟩
  rcases hq : q d with ⟨noted', outcome'⟩
  rw [hp, hq] at hc
  cases outcome with
  | found a next =>
    rw [Recovering.map_of_found hp] at hgood ⊢
    have hclean : x.tail = [] ∨ ∃ a' next', (⟨noted, .found a next⟩ : Recovered α) =
        ⟨[], .found a' next'⟩ :=
      hgood.imp_right fun ⟨_, _, hfound⟩ =>
        ⟨a, next, by rw [show noted = [] from congrArg Recovered.noted hfound]⟩
    obtain ⟨hnoted, houtcome⟩ := hc hclean
    cases houtcome with
    | found ha hnext =>
      rw [Recovering.map_of_found hq]
      exact ⟨hnoted, .found (by rw [ha, hfg]) hnext⟩
  | failed m next =>
    rw [Recovering.bind_of_failed hp] at hgood ⊢
    obtain ⟨hnoted, houtcome⟩ := hc (hgood.imp_right fun ⟨b, last, hfailed⟩ => by cases hfailed)
    cases houtcome with
    | failed hm hnext =>
      rw [Recovering.bind_of_failed hq]
      exact ⟨hnoted, .failed hm hnext⟩

/-- Putting the same phrase around corresponding parts gives corresponding trees. -/
theorem node {phrase : Phrase} {p q : Recovering (List Tree)}
    (hpq : x.Finishes near bound x.row p q) :
    x.Finishes near bound x.tree (Parser.recoveringNode phrase p)
      (Parser.recoveringNode phrase q) :=
  hpq.map fun ts => (x.tree_node phrase ts).symm

/-- A row of one tree. -/
theorem single {p q : Recovering Tree} (hpq : x.Finishes near bound x.tree p q) :
    x.Finishes near bound x.row (do return [← p]) (do return [← q]) := hpq.map fun _ => rfl

/-- A phrase that is tried first: either it is all, or nothing was taken. -/
theorem attempt_bind {p : Parser α} {q : Parser α'} {f : Option α → Recovering β}
    {g : Option α' → Recovering β'} {u : α → β}
    (hpq : x.Mirrors (x.Fits near bound) (x.At true) h p q) (hf : ∀ a, f (some a) = pure (u a))
    (hg : ∀ a, g (some (h a)) = pure (k (u a)))
    (hnone : x.Finishes near bound k (f none) (g none)) :
    x.Finishes near bound k ((Parser.attempt p : Recovering (Option α)) >>= f)
      ((Parser.attempt q : Recovering (Option α')) >>= g) := by
  intro c d hcd hgood
  have hc := hpq c d hcd
  generalize hp : p c = o at hc
  generalize hq : q d = o' at hc
  cases hc with
  | found ha hnext =>
    subst ha
    rw [Recovering.lift_bind_of_found (Parser.attempt_of_found hp),
      Recovering.lift_bind_of_found (Parser.attempt_of_found hq), hf, hg]
    exact ⟨rfl, .found rfl hnext⟩
  | failed hm hnext =>
    rw [Recovering.lift_bind_of_found (Parser.attempt_of_failed hp)] at hgood ⊢
    rw [Recovering.lift_bind_of_found (Parser.attempt_of_failed hq)]
    exact hnone c d hcd hgood

end Finishes

/-! ## Arguments -/

/-- Two parsers do the same; if the second text goes on, this is so where the first parser finds
something and a brace or semicolon is to come behind it. -/
def Reaches (x : Transfer) (bound bound' : Nat) (h : α → α') (p : Parser α)
    (q : Parser α') : Prop :=
  ∀ c d, x.Fits true bound c d →
    (x.tail = [] ∨ ∃ a next, p c = .found a next ∧ x.Settled next.rest) →
    x.Alike h (x.Fits true bound') (p c) (q d)

namespace Reaches

variable {last : Nat} {p : Parser α} {q : Parser α'}

/-- Parsers that do the same wherever they end do so if a brace or semicolon is to come behind
them. -/
theorem of_mirrors (hpq : x.Mirrors (x.Fits true bound) (x.Fits true bound') h p q) :
    x.Reaches bound bound' h p q := fun c d hcd _ => hpq c d hcd

/-- If a brace or semicolon is to come behind two parsers, it is to come behind the first of
them. -/
theorem bind {f : α → Parser β} {g : α' → Parser β'} {P : α → List Token → β → Prop}
    (hpq : x.Reaches bound bound' h p q) (htakes : ∀ a, (f a).Takes (P a))
    (hfg : ∀ a, x.Reaches bound' last k (f a) (g (h a))) :
    x.Reaches bound last k (p >>= f) (q >>= g) := by
  intro c d hcd hgood
  -- what is to come behind both is to come behind the first
  have hfirst : x.tail = [] ∨ ∃ a next, p c = .found a next ∧ x.Settled next.rest := by
    refine hgood.imp_right fun ⟨b, last, hfound, hsettled⟩ => ?_
    obtain ⟨a, next, hp, hf⟩ := Parser.exists_found_of_bind hfound
    exact ⟨a, next, hp, hsettled.of_suffix ((htakes a).suffix hf)⟩
  refine (hpq c d hcd hfirst).bind fun a next next' hp hnext => hfg a next next' hnext ?_
  rwa [Parser.bind_of_found hp] at hgood

theorem here_bind {f : Cursor → Parser β} {g : Cursor → Parser β'}
    (hfg : ∀ c d, x.Fits true bound c d → x.Reaches bound last k (f c) (g d)) :
    x.Reaches bound last k (Parser.here >>= f) (Parser.here >>= g) :=
  fun c d hcd hgood => hfg c d hcd c d hcd hgood

theorem take (phrase : Phrase) (wanted : KindSet) :
    x.Reaches bound (bound - 1) x.tree (Parser.take phrase wanted) (Parser.take phrase wanted) := by
  intro c d hcd hgood
  have hc := Mirrors.take_stop phrase wanted c d hcd
  have htakes := Parser.Takes.take phrase wanted c
  generalize Parser.take phrase wanted c = o at hc hgood htakes ⊢
  generalize Parser.take phrase wanted d = o' at hc ⊢
  cases hc with
  | found ha hnext =>
    rename_i next next'
    obtain ⟨taken, hrest, t, rfl, _⟩ := htakes
    have hbounded := hcd.bounded
    rw [hrest] at hbounded
    have hsettled : x.Settled next.rest := by
      rcases hgood with htail | ⟨_, _, hfound, hsettled⟩
      · exact .inl htail
      · cases hfound
        exact hsettled
    exact .found ha (hnext.settled (Nat.le_sub_one_of_lt hbounded) hsettled)
  | failed hm hnext => exact .failed hm hnext

/-- A step before the last one, behind which something is to come as well. -/
theorem after {f : α → Parser β} {g : α' → Parser β'}
    (hpq : x.Mirrors (x.Fits true bound) (x.Fits true bound') h p q)
    (hfg : ∀ a, x.Reaches bound' last k (f a) (g (h a))) :
    x.Reaches bound last k (p >>= f) (q >>= g) := by
  intro c d hcd hgood
  refine (hpq c d hcd).bind fun a next next' hp hnext => hfg a next next' hnext ?_
  rwa [Parser.bind_of_found hp] at hgood

/-- Items that each take a token. -/
theorem repeatWhile {more : Cursor → Bool} {item item' : Parser (List Tree)}
    {P : List Token → List Tree → Prop} (hmore : ∀ c d, x.Fits true bound c d → more d = more c)
    (hend : ∀ c, c.rest = [] → more c = false) (htakes : item.Takes P)
    (hitem : ∀ n ≤ bound, x.Reaches n (n - 1) x.row item item') :
    x.Reaches bound bound x.row (Parser.repeatWhile more item) (Parser.repeatWhile more item') := by
  have hwithinTakes (n : Nat) : (Parser.repeatWithin more item n).Takes fun _ _ => True := by
    induction n with
    | zero => exact .pure trivial
    | succ n ih =>
      refine .here_bind fun c => ?_
      split
      · exact htakes.bind fun ts _ _ => ih.bind fun us _ _ => .pure trivial
      · exact .pure trivial
  have hwithin (n : Nat) (hn : n ≤ bound) : ∀ m, n + x.tail.length ≤ m →
      x.Reaches n n x.row (Parser.repeatWithin more item n) (Parser.repeatWithin more item' m) := by
    induction n with
    | zero =>
      intro m _ c d hcd _
      rw [Parser.repeatWithin_of_rest_nil hend item' m (hcd.rest_nil hcd.rest_eq_nil)]
      exact .found rfl hcd
    | succ n ih =>
      intro m hm
      obtain ⟨m, rfl⟩ : ∃ m', m = m' + 1 := ⟨m - 1, by omega⟩
      refine here_bind fun c d hcd => ?_
      rw [hmore c d (hcd.mono hn)]
      split
      · have hrest := ih (by omega) m (by omega)
        refine (hitem (n + 1) hn).bind (P := fun _ _ _ => True) (fun ts => ?_) fun ts => ?_
        · exact (hwithinTakes n).bind fun us _ _ => .pure trivial
        · refine hrest.bind (P := fun _ _ _ => True) (fun us => .pure trivial) fun us =>
            of_mirrors ?_
          exact (Mirrors.pure (x.row_append ts us).symm).mono (fun _ _ hcd => hcd) fun _ _ hcd =>
            hcd.mono (Nat.le_succ n)
      · exact of_mirrors (.pure rfl)
  intro c d hcd
  have hc := hwithin c.rest.length hcd.bounded d.rest.length
    (Nat.le_of_eq hcd.length_rest.symm) c d hcd.exact
  exact fun hgood => (hc hgood).mono fun _ _ hnext => hnext.mono hcd.bounded

end Reaches

/-- Arguments, and what stands behind them: something is to come there where that was found. -/
theorem Reaches.lift_bind {p : Parser α} {q : Parser α'} {f : α → Recovering β}
    {g : α' → Recovering β'} (hpq : x.Reaches bound bound' h p q) (hends : ∀ a, (f a).Ends)
    (hfg : ∀ a, x.Finishes true bound' k (f a) (g (h a))) :
    x.Finishes true bound k ((p : Recovering α) >>= f) ((q : Recovering α') >>= g) := by
  intro c d hcd hgood
  have hfirst : x.tail = [] ∨ ∃ a next, p c = .found a next ∧ x.Settled next.rest := by
    refine hgood.imp_right fun ⟨b, last, hfound⟩ => ?_
    obtain ⟨a, next, hp, hf⟩ := Recovering.exists_found_of_bind (congrArg Recovered.outcome hfound)
    exact ⟨a, next, hp, .inr (hends a next b last hf)⟩
  refine (hpq c d hcd hfirst).repeats_bind fun a next next' hp hnext => hfg a next next' hnext ?_
  rwa [Recovering.lift_bind_of_found hp] at hgood

end Transfer

namespace Parser

open Transfer

variable {x : Transfer} {near : Bool} {bound : Nat}

/-- The arguments of a call are the same in both texts, if a brace or semicolon is to come. -/
theorem arguments_reaches : x.Reaches bound bound x.tree arguments arguments := by
  have hclosed (ts : List Tree) : (do
      return ts ++ [← expect .arguments .rightParen] : Parser (List Tree)).Takes fun _ _ => True :=
    (Takes.expect _ _).bind fun right _ _ => .pure trivial
  refine Reaches.bind (P := fun _ _ _ => True) ?_ (fun ts => .pure trivial) fun ts =>
    .of_mirrors (.pure (x.tree_node _ ts).symm)
  refine .after (Mirrors.expect _ (by decide)).passes fun left => .here_bind fun c d hcd => ?_
  rw [hcd.isAt_eq]
  split
  · exact .of_mirrors ((Mirrors.expect _ (by decide)).passes.bind fun right => .pure rfl)
  · refine .after argument_mirrors.passes fun head => ?_
    have hitemTakes : (do return [← take .arguments (.ofList [.comma, .semicolon]), ← argument] :
        Parser (List Tree)).Takes fun _ _ => True :=
      (Takes.take _ _).bind fun sign _ _ => argument_takes.bind fun value _ _ => .pure trivial
    refine Reaches.bind (P := fun _ _ _ => True) (.repeatWhile (fun c d hcd => hcd.isAtAny_eq _)
      (fun c hc => Cursor.isAtAny_of_rest_nil hc _) hitemTakes fun n _ => ?_)
        (fun more => hclosed _) fun more => ?_
    · refine (Reaches.take _ _).bind (P := fun _ _ _ => True) (fun sign => ?_) fun sign => ?_
      · exact argument_takes.bind fun value _ _ => .pure trivial
      · exact .of_mirrors (argument_mirrors.passes.bind fun value => .pure rfl)
    · exact .of_mirrors ((Mirrors.expect _ (by decide)).passes.bind fun right => .pure (by simp))

/-! ## Statements with blocks -/

/-- Whether a selector can be called does not depend on the places of its tokens. -/
theorem isCallable_tree (t : Tree) : isCallable (x.tree t) = isCallable t := by
  rw [isCallable, tree, Tree.leaves_map, List.all_map]
  rfl

theorem hasExtend_tree (t : Tree) : hasExtend (x.tree t) = hasExtend t := by
  have hphrase : (fun u : Tree => u.phrase? == some .extendClause) ∘ Tree.map x.token =
      fun u => u.phrase? == some .extendClause :=
    funext fun u => by rw [Function.comp_apply, Tree.phrase?_map]
  unfold hasExtend Tree.node? Tree.nodesOf
  rw [tree, Tree.children_map, List.filter_map, hphrase, List.head?_map, Option.isSome_map]

section Blocks

variable {block block' : Recovering Tree} (hblock : x.Finishes true bound x.tree block block')
  (hends : block.Ends)

include hblock

theorem afterArguments_finishes (args : Tree) :
    x.Finishes true bound x.row (afterArguments block args)
      (afterArguments block' (x.tree args)) := by
  refine .here_bind fun c d hcd => ?_
  rw [hcd.isAt_eq, hcd.isAt_eq]
  split
  · exact .lift_bind guard_mirrors.passes fun condition => hblock.map fun _ => rfl
  · split
    · exact hblock.map fun _ => rfl
    · exact (Finishes.lift (ending_mirrors _)).map fun _ => rfl

include hends

theorem afterSelectors_finishes (selectors : Tree) :
    x.Finishes true bound x.row (afterSelectors block selectors)
      (afterSelectors block' (x.tree selectors)) := by
  refine .here_bind fun c d hcd => ?_
  rw [hcd.isAt_eq, hcd.isAt_eq, hcd.isAt_eq, hcd.isAtAny_eq, isCallable_tree, hasExtend_tree]
  split
  · exact arguments_reaches.lift_bind (afterArguments_ends hends) (afterArguments_finishes hblock)
  · split
    · exact (Finishes.lift (.expect_stop _ _)).map fun _ => rfl
    · split
      · exact .lift (ending_mirrors _)
      · split
        · exact hblock.single
        · exact .fail _ _

theorem rulesetOrMixin_finishes :
    x.Finishes near bound x.tree (rulesetOrMixin block) (rulesetOrMixin block') := by
  refine .node (.lift_bind selectorList_mirrors fun selectors => ?_)
  have hafter := afterSelectors_finishes hblock hends selectors
  exact (hafter.mono (Nat.sub_le _ _)).map fun rest => rfl

omit hends in
theorem mediaRule_finishes : x.Finishes near bound x.tree (mediaRule block) (mediaRule block') := by
  refine .node (.lift_bind (Mirrors.expect _ (by decide)) fun head => ?_)
  exact .lift_bind mediaList_mirrors fun queries => (hblock.mono (Nat.sub_le _ _)).map fun _ => rfl

omit hends in
theorem generalAtRule_finishes :
    x.Finishes near bound x.tree (generalAtRule block) (generalAtRule block') := by
  refine .node (.lift_bind (Mirrors.expect _ (by decide)) fun head => ?_)
  refine .lift_bind atRulePrelude_mirrors fun content => .here_bind fun c d hcd => ?_
  rw [hcd.isAt_eq]
  split
  · exact (Finishes.lift (.expect_stop _ _)).map fun _ => by simp
  · exact (hblock.mono (Nat.sub_le _ _)).map fun _ => by simp

omit hends in
theorem atRule_finishes : x.Finishes near bound x.tree (atRule block) (atRule block') := by
  refine .node (.here_bind fun c d hcd => ?_)
  rw [hcd.kind?_eq]
  split
  · exact .single (.lift importRule_mirrors)
  · exact .single (.lift pluginRule_mirrors)
  · exact .single (mediaRule_finishes hblock)
  · exact .single (generalAtRule_finishes hblock)
  · exact .fail _ _

/-- A statement that is found without mismatches is found in the longer text as well. -/
theorem statement_finishes (inBlock : Bool) :
    x.Finishes near bound x.tree (statement block inBlock) (statement block' inBlock) := by
  refine .here_bind fun c d hcd => ?_
  rw [hcd.isAt_second_eq (by decide), hcd.startsHere_eq, hcd.startsHere_eq, hcd.startsHere_eq]
  split
  · exact .lift assignment_mirrors
  · split
    · exact atRule_finishes hblock
    · have hlate : x.Finishes near bound x.tree
          (if startsHere c .rulesetOrMixin then rulesetOrMixin block
            else (fail .statements (first .statements) : Parser Tree))
          (if startsHere c .rulesetOrMixin then rulesetOrMixin block'
            else (fail .statements (first .statements) : Parser Tree)) := by
        split
        · exact rulesetOrMixin_finishes hblock hends
        · exact .fail _ _
      split
      · exact .attempt_bind declaration_mirrors (fun tree => rfl) (fun tree => rfl) hlate
      · exact hlate

end Blocks

end Parser

end LessCss
