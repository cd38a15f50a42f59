import LessCss.Proofs.Parsing.Progress

/-!
# The same phrase before other tokens

A simple selector that was found in a text is found again where its tokens stand in another text,
whatever stood behind them in the first text and whatever does in the second
(`Parser.simpleSelector_echoes`).  There is one condition: what follows in the second text must not
be read as a further part, as it would be if it touched the last token (`Transfer.Sealed`).

The claim is about a parser that found something and took only tokens that both texts share
(`Transfer.Echoes`).  While at least one of these is still to be taken, the parser sees the same in
both texts.  Where none is left, it looks at tokens that are not shared, and it does so only in
order to go on; in the first text it did not, and in the second it must not.
-/

namespace LessCss

theorem Cursor.isAtAny_ofList (c : Cursor) (k : Kind) : c.isAtAny (.ofList [k]) = c.isAt k := by
  unfold isAtAny isAt
  cases c.kind? with
  | none => rfl
  | some j => exact Bool.eq_iff_iff.mpr (by simp)

namespace Parser

variable {α β : Type}

/-- Where a repetition does not go on it finds nothing more. -/
theorem repeatWhile_of_not {more : Cursor → Bool} {c : Cursor} (h : more c = false)
    (item : Parser (List Tree)) :
    repeatWhile more item c = .found [] c := by
  unfold repeatWhile
  cases c.rest.length with
  | zero => rfl
  | succ n =>
    change (if more c then _ else give [] : Parser (List Tree)) c = _
    rw [h]
    rfl

/-- A choice by the place, with the same steps behind both. -/
theorem here_ite_bind (b : Cursor → Bool) (p q : Parser α) (f : α → Parser β) :
    (here >>= fun c => if b c then p >>= f else q >>= f) =
      (here >>= fun c => if b c then p else q) >>= f := by
  funext c
  change (if b c then p >>= f else q >>= f) c =
    andThen (andThen here fun c => if b c then p else q) f c
  simp only [andThen, here]
  cases b c <;> rfl

/-- Parentheses that are kept as they are end with the next token, or go on behind it, and then they
do so behind every token of its kind. -/
theorem takeBalanced_found {phrase : Phrase} {depth : Nat} {previous : Option Token} {t : Token}
    {us : List Token} {ts : List Tree} {next : Cursor}
    (h : takeBalanced phrase depth previous (t :: us) = .found ts next) :
    (depth = 0 ∧ t.kind = .rightParen ∧ ts = [.leaf t] ∧ next = ⟨some t, us⟩) ∨
      ∃ depth' inner, ts = .leaf t :: inner ∧
      takeBalanced phrase depth' (some t) us = .found inner next ∧
        ∀ (t' : Token) previous' us' inner' next', t'.kind = t.kind →
          takeBalanced phrase depth' (some t') us' = .found inner' next' →
          takeBalanced phrase depth previous' (t' :: us') = .found (.leaf t' :: inner') next' := by
  have honward (depth' : Nat)
      (hfound : ∀ (t' : Token) previous' us' inner' next', t'.kind = t.kind →
        takeBalanced phrase depth' (some t') us' = .found inner' next' →
        takeBalanced phrase depth previous' (t' :: us') = .found (.leaf t' :: inner') next')
      (hfailed : ∀ m stop, takeBalanced phrase depth' (some t) us = .failed m stop →
        takeBalanced phrase depth previous (t :: us) = .failed m stop) :
      ∃ depth' inner, ts = .leaf t :: inner ∧
        takeBalanced phrase depth' (some t) us = .found inner next ∧
        ∀ (t' : Token) previous' us' inner' next', t'.kind = t.kind →
          takeBalanced phrase depth' (some t') us' = .found inner' next' →
          takeBalanced phrase depth previous' (t' :: us') = .found (.leaf t' :: inner') next' := by
    cases hinner : takeBalanced phrase depth' (some t) us with
    | failed m stop => cases h.symm.trans (hfailed m stop hinner)
    | found inner stop =>
      cases h.symm.trans (hfound t previous us inner stop rfl hinner)
      exact ⟨depth', inner, rfl, hinner, hfound⟩
  obtain ⟨k, hk⟩ : ∃ k, t.kind = k := ⟨_, rfl⟩
  cases k with
  | leftParen | function | extend =>
    refine .inr (honward (depth + 1) (fun t' previous' us' inner' next' hkind h => ?_)
      fun m stop h => ?_)
    · simp only [takeBalanced, hkind, hk, h]
    · simp only [takeBalanced, hk, h]
  | rightParen =>
    cases depth with
    | zero =>
      simp only [takeBalanced, hk] at h
      cases h
      exact .inl ⟨rfl, hk, rfl, rfl⟩
    | succ depth =>
      refine .inr (honward depth (fun t' previous' us' inner' next' hkind h => ?_)
        fun m stop h => ?_)
      · simp only [takeBalanced, hkind, hk, h]
      · simp only [takeBalanced, hk, h]
  | leftBrace | rightBrace | semicolon =>
    simp only [takeBalanced, hk] at h
    cases h
  | _ =>
    refine .inr (honward depth (fun t' previous' us' inner' next' hkind h => ?_) fun m stop h => ?_)
    · simp only [takeBalanced, hkind, hk, h]
    · simp only [takeBalanced, hk, h]

/-- Balanced parentheses take a token at least. -/
theorem takeBalanced_lt {phrase : Phrase} {depth : Nat} {previous : Option Token}
    {tokens : List Token} {ts : List Tree} {next : Cursor}
    (h : takeBalanced phrase depth previous tokens = .found ts next) :
    next.rest.length < tokens.length := by
  induction tokens generalizing depth previous ts with
  | nil => cases h
  | cons t us ih =>
    rcases takeBalanced_found h with ⟨-, -, -, rfl⟩ | ⟨depth', inner, -, hinner, -⟩
    · exact Nat.lt_succ_self _
    · exact (ih hinner).trans (Nat.lt_succ_self _)

/-- A parser that finds something has taken at least `n` tokens. -/
def Least (n : Nat) (p : Parser α) : Prop :=
  ∀ c a next, p c = .found a next → next.rest.length + n ≤ c.rest.length

namespace Least

variable {n m : Nat} {p q : Parser α} {f : α → Parser β}

theorem pure (a : α) : Least 0 (Pure.pure a : Parser α) := by
  intro c b next h
  cases h
  exact Nat.le_refl _

theorem fail (phrase : Phrase) (wanted : KindSet) :
    Least n (Parser.fail phrase wanted : Parser α) :=
  fun _ _ _ h => by cases h

theorem of_advances (hp : p.Advances) : Least 0 p := by
  intro c a next h
  have hbefore := (hp c).stop
  rw [h] at hbefore
  exact hbefore.suffix.length_le

/-- One parser behind another takes what both take at least. -/
theorem bind (hp : Least n p) (hf : ∀ a, Least m (f a)) : Least (n + m) (p >>= f) := by
  intro c b last h
  obtain ⟨a, next, hpc, hfa⟩ := exists_found_of_bind h
  have hfirst := hp c a next hpc
  have hsecond := hf a next b last hfa
  omega

theorem of_first (hp : Least n p) (hf : ∀ a, Least 0 (f a)) : Least n (p >>= f) := hp.bind hf

theorem of_second (hp : p.Advances) (hf : ∀ a, Least m (f a)) : Least m (p >>= f) := by
  have hboth := (of_advances hp).bind hf
  rwa [Nat.zero_add] at hboth

theorem here_bind {f : Cursor → Parser β} (hf : ∀ c, Least m (f c)) : Least m (Parser.here >>= f) :=
  fun c b last h => hf c c b last h

theorem ite {b : Prop} [Decidable b] (hp : Least n p) (hq : Least n q) :
    Least n (if b then p else q) := by
  split
  · exact hp
  · exact hq

/-- A parser takes at least as many tokens as what is known of them says. -/
theorem of_takes {P : List Token → α → Prop} (h : p.Takes P)
    (hP : ∀ taken a, P taken a → n ≤ taken.length) :
    Least n p := by
  intro c a next hfound
  have hc := h c
  rw [hfound] at hc
  obtain ⟨taken, hrest, htaken⟩ := hc
  have hle := hP taken a htaken
  rw [hrest, List.length_append]
  omega

/-- What is spelled as a phrase takes a token at least. -/
theorem of_spells {p : Parser Tree} (h : p.Takes Tree.Spells) : Least 1 p :=
  of_takes h fun _ _ hspells => List.length_pos_iff.mpr hspells.nonempty

theorem take (phrase : Phrase) (wanted : KindSet) : Least 1 (Parser.take phrase wanted) :=
  of_spells (Takes.take_spells phrase wanted)

theorem of_row {p : Parser (List Tree)} (h : p.Takes Tree.SpellsRow) : Least 0 p :=
  of_takes h fun _ _ _ => Nat.zero_le _

end Least

end Parser

namespace Transfer

variable {α β α' β' : Type}

/-! ## Shared tokens -/

/-- Two places have the same tokens behind them, up to `last`.  Then the first text goes on with
`rest`, and the second one with the tail of the transfer. -/
structure Shares (x : Transfer) (rest : List Token) (last : Token) (near : Bool)
    (common : List Token) (c d : Cursor) : Prop where
  rest_left : c.rest = common ++ rest
  rest_right : d.rest = common.map x.token ++ x.tail
  spaced : common.IsChain x.Spaced
  previous : near = true →
    d.previous = c.previous.map x.token ∧ ∀ p ∈ c.previous, ∀ t ∈ common.head?, x.Spaced p t
  last_eq : common.getLast?.or c.previous = some last

/-- What follows `last` in the second text is no part of what `last` ends: it does not touch, or it
is the sign of a combinator or a block. -/
def Sealed (x : Transfer) (last : Token) : Prop :=
  ∀ t ∈ x.tail.head?, t.start = x.stop last → t.kind ∈ [Kind.greater, .plus, .tilde, .leftBrace]

/-- A parser sees the same at two places. -/
structure Sees (x : Transfer) (near : Bool) (c d : Cursor) : Prop where
  next?_eq : d.next? = c.next?.map x.token
  isTight_eq : near = true → d.isTight = c.isTight

namespace Sees

variable {x : Transfer} {near : Bool} {c d : Cursor}

theorem kind?_eq (h : x.Sees near c d) : d.kind? = c.kind? := by
  rw [Cursor.kind?, Cursor.kind?, h.next?_eq, Option.map_map]
  rfl

/-- At places where the same is to come the same kinds of token are next. -/
theorem isAt_eq (h : x.Sees near c d) (k : Kind) : d.isAt k = c.isAt k := by
  rw [Cursor.isAt, Cursor.isAt, h.kind?_eq]

theorem isAtAny_eq (h : x.Sees near c d) (s : KindSet) : d.isAtAny s = c.isAtAny s := by
  rw [Cursor.isAtAny, Cursor.isAtAny, h.kind?_eq]

theorem startsHere_eq (h : x.Sees near c d) (p : Phrase) :
    Parser.startsHere d p = Parser.startsHere c p :=
  h.isAtAny_eq _

end Sees

namespace Shares

variable {x : Transfer} {rest : List Token} {last : Token} {near : Bool} {common : List Token}
  {c d : Cursor}

/-- While shared tokens are left. -/
theorem sees (h : x.Shares rest last near common c d) (hne : common ≠ []) : x.Sees near c d := by
  obtain ⟨t, ts, rfl⟩ := List.exists_cons_of_ne_nil hne
  have hnext : c.next? = some t := by rw [Cursor.next?, h.rest_left]; rfl
  have hnext' : d.next? = some (x.token t) := by rw [Cursor.next?, h.rest_right]; rfl
  refine ⟨by rw [hnext, hnext']; rfl, fun hnear => ?_⟩
  obtain ⟨hprevious, hspaced⟩ := h.previous hnear
  unfold Cursor.isTight
  rw [hprevious, hnext, hnext']
  cases hp : c.previous with
  | none => rfl
  | some p => exact Bool.eq_iff_iff.mpr (by simpa [token] using (hspaced p hp t rfl).1)

/-- By taking a shared token. -/
theorem step {t : Token} {ts : List Token} (h : x.Shares rest last near (t :: ts) c d) :
    x.Shares rest last true ts ⟨some t, ts ++ rest⟩
      ⟨some (x.token t), ts.map x.token ++ x.tail⟩ where
  rest_left := rfl
  rest_right := rfl
  spaced := h.spaced.of_cons
  previous _ := by
    refine ⟨rfl, fun p hp => ?_⟩
    cases hp
    exact (List.isChain_cons.mp h.spaced).1
  last_eq := by
    rw [← h.last_eq]
    cases ts with
    | nil => rfl
    | cons u us => simp [List.getLast?_cons]

/-- Where no shared tokens are left, nothing goes on in the second text. -/
theorem not_tight (h : x.Shares rest last true [] c d) (hsealed : x.Sealed last) {s : KindSet}
    (hs : ∀ k ∈ [Kind.greater, .plus, .tilde, .leftBrace], s.contains k = false) :
    (d.isTight && d.isAtAny s) = false := by
  have hlast : c.previous = some last := by simpa using h.last_eq
  have hprevious : d.previous = some (x.token last) := by
    rw [(h.previous rfl).1, hlast]
    rfl
  have hrest : d.rest = x.tail := h.rest_right
  obtain ⟨previous, tokens⟩ := d
  obtain rfl : previous = some (x.token last) := hprevious
  obtain rfl : tokens = x.tail := hrest
  cases htail : x.tail with
  | nil => rfl
  | cons t ts =>
    rw [Bool.and_eq_false_iff]
    by_cases htight : t.start = x.stop last
    · exact .inr (hs _ (hsealed t (by simp [htail]) htight))
    · exact .inl (by simpa [Cursor.isTight, Cursor.next?, token] using htight)

end Shares

/-! ## Parsers -/

/-- If the first parser finds something among the shared tokens and leaves at least `spare` of them,
the second one finds the same. -/
def Echoes (x : Transfer) (rest : List Token) (last : Token) (near near' : Bool) (spare : Nat)
    (h : α → β) (p : Parser α) (q : Parser β) : Prop :=
  ∀ common c d a next, x.Shares rest last near common c d → p c = .found a next →
    rest.length + spare ≤ next.rest.length →
    ∃ common' next', q d = .found (h a) next' ∧ x.Shares rest last near' common' next next'

namespace Echoes

variable {x : Transfer} {rest : List Token} {last : Token} {near mid near' : Bool} {n m : Nat}
  {h : α → α'}
  {k : β → β'} {p : Parser α} {q : Parser α'}

theorem pure {a : α} {b : α'} (hab : b = h a) :
    x.Echoes rest last near near n h (Pure.pure a : Parser α) (Pure.pure b : Parser α') := by
  intro common c d a' next hcd hfound _
  cases hfound
  exact ⟨common, d, by rw [hab]; rfl, hcd⟩

theorem fail (phrase : Phrase) (wanted : KindSet) :
    x.Echoes rest last near near' n h (Parser.fail phrase wanted) (Parser.fail phrase wanted) :=
  fun _ _ _ _ _ _ hfound => by cases hfound

/-- One parser, and then another that takes some of what the first one leaves. -/
theorem bind {f : α → Parser β} {g : α' → Parser β'}
    (hpq : x.Echoes rest last near mid (n + m) h p q) (hleast : ∀ a, (f a).Least m)
    (hfg : ∀ a, x.Echoes rest last mid near' n k (f a) (g (h a))) :
    x.Echoes rest last near near' n k (p >>= f) (q >>= g) := by
  intro common c d b last' hcd hfound hspare
  obtain ⟨a, next, hp, hf⟩ := Parser.exists_found_of_bind hfound
  have hle := hleast a next b last' hf
  obtain ⟨common', next', hq, hnext⟩ := hpq common c d a next hcd hp (by omega)
  obtain ⟨common'', last'', hg, hlast⟩ := hfg a common' next next' b last' hnext hf hspare
  refine ⟨common'', last'', ?_, hlast⟩
  rw [Parser.bind_of_found hq, hg]

/-- To look where one is, before something is taken: one sees the same. -/
theorem here_bind {f : Cursor → Parser β} {g : Cursor → Parser β'} (hleast : ∀ c, (f c).Least m)
    (hpos : 0 < n + m)
    (hfg : ∀ c d, x.Sees near c d → x.Echoes rest last near near' n k (f c) (g d)) :
    x.Echoes rest last near near' n k (Parser.here >>= f) (Parser.here >>= g) := by
  intro common c d b next hcd hfound hspare
  refine hfg c d (hcd.sees ?_) common c d b next hcd hfound hspare
  rintro rfl
  have hle := hleast c c b next hfound
  rw [hcd.rest_left, List.nil_append] at hle
  omega

/-- A choice between two parsers, with the same steps behind both. -/
theorem ite_bind {b : Bool} {p' : Parser α} {q' : Parser α'} {f : α → Parser β} {g : α' → Parser β'}
    (hpq : x.Echoes rest last near mid (n + m) h p q)
    (hpq' : x.Echoes rest last near mid (n + m) h p' q') (hleast : ∀ a, (f a).Least m)
    (hfg : ∀ a, x.Echoes rest last mid near' n k (f a) (g (h a))) :
    x.Echoes rest last near near' n k (if b then p >>= f else p' >>= f)
      (if b then q >>= g else q' >>= g) := by
  cases b with
  | true => exact hpq.bind hleast hfg
  | false => exact hpq'.bind hleast hfg

/-- Taking a token finds the same in both texts, if it is one of the shared ones. -/
theorem take (phrase : Phrase) (wanted : KindSet) :
    x.Echoes rest last near true n x.tree (Parser.take phrase wanted)
      (Parser.take phrase wanted) := by
  intro common c d t next hcd hfound hspare
  cases common with
  | nil =>
    have hle := Parser.Least.take phrase wanted c t next hfound
    rw [hcd.rest_left, List.nil_append] at hle
    omega
  | cons u us =>
    have hrest := hcd.rest_left
    have hrest' := hcd.rest_right
    rw [List.cons_append] at hrest
    rw [List.map_cons, List.cons_append] at hrest'
    unfold Parser.take at hfound ⊢
    rw [hrest] at hfound
    rw [hrest']
    dsimp only at hfound ⊢
    rw [token_kind]
    split at hfound
    · rename_i hwanted
      cases hfound
      rw [if_pos hwanted]
      exact ⟨us, _, rfl, hcd.step⟩
    · cases hfound

theorem expect (phrase : Phrase) (j : Kind) :
    x.Echoes rest last near true n x.tree (Parser.expect phrase j) (Parser.expect phrase j) :=
  take phrase _

/-- Putting a phrase around the same parts finds the same in both texts. -/
theorem node {phrase : Phrase} {ps qs : Parser (List Tree)}
    (hpq : x.Echoes rest last near near' n x.row ps qs) :
    x.Echoes rest last near near' n x.tree (Parser.node phrase ps) (Parser.node phrase qs) :=
  hpq.bind (fun _ => .pure _) fun ts => .pure (x.tree_node phrase ts).symm

theorem single {p q : Parser Tree} (hpq : x.Echoes rest last near near' n x.tree p q) :
    x.Echoes rest last near near' n x.row (do return [← p]) (do return [← q]) :=
  hpq.bind (fun _ => .pure _) fun _ => .pure rfl

/-- A token that may be left out, where another one is still to be taken. -/
theorem accept (phrase : Phrase) (j : Kind) :
    x.Echoes rest last true true (n + 1) x.row (Parser.accept phrase j)
      (Parser.accept phrase j) := by
  refine here_bind (m := 0) (fun c => ?_) (Nat.succ_pos _) fun c d hcd => ?_
  · exact .ite (.of_row (.single (.expect phrase j))) (.pure _)
  · rw [hcd.isAt_eq]
    split
    · exact single (expect phrase j)
    · exact pure rfl

/-- Parentheses that are kept as they are. -/
theorem balanced (phrase : Phrase) :
    x.Echoes rest last near true n x.row (Parser.balanced phrase) (Parser.balanced phrase) := by
  have hfrom (common : List Token) : ∀ near depth c d ts next, x.Shares rest last near common c d →
      Parser.takeBalanced phrase depth c.previous c.rest = .found ts next →
        rest.length + n ≤ next.rest.length →
      ∃ common' next', Parser.takeBalanced phrase depth d.previous d.rest =
        .found (x.row ts) next' ∧
        x.Shares rest last true common' next next' := by
    induction common with
    | nil =>
      intro near depth c d ts next hcd hfound hspare
      have hlt := Parser.takeBalanced_lt hfound
      rw [hcd.rest_left, List.nil_append] at hlt
      omega
    | cons t us ih =>
      intro near depth c d ts next hcd hfound hspare
      rw [hcd.rest_left, List.cons_append] at hfound
      rw [hcd.rest_right, List.map_cons, List.cons_append]
      rcases Parser.takeBalanced_found hfound with ⟨rfl, hk, rfl, rfl⟩ | ⟨depth', inner, rfl,
          hinner, honward⟩
      · exact ⟨us, _, by simp only [Parser.takeBalanced, token_kind, hk]; rfl, hcd.step⟩
      · obtain ⟨common', next', hfound', hnext⟩ :=
          ih true depth' _ _ inner next hcd.step hinner hspare
        exact ⟨common', next', honward (x.token t) d.previous _ _ _ rfl hfound', hnext⟩
  exact fun common c d ts next hcd hfound hspare =>
    hfrom common near 0 c d ts next hcd hfound hspare

/-- A step that is taken only where something further is found: at the end of the shared tokens
nothing was taken in the first text, and nothing is looked for in the second one. -/
theorem further {more : Cursor → Bool} {p : Parser (List Tree)} {common : List Token}
    {c d next : Cursor} {ts : List Tree} (hsees : ∀ c d, x.Sees true c d → more d = more c)
    (hends : ∀ c d, x.Shares rest last true [] c d → more d = false) (hleast : p.Least 1)
    (hcd : x.Shares rest last true common c d)
    (hfound : (if more c then p else Pure.pure [] : Parser (List Tree)) c = .found ts next)
    (hspare : rest.length ≤ next.rest.length) :
    more d = true ∧ p c = .found ts next ∨ more d = false ∧ ts = [] ∧ next = c := by
  by_cases hmore : more c = true
  · rw [if_pos hmore] at hfound
    refine .inl ⟨?_, hfound⟩
    rw [hsees c d (hcd.sees ?_), hmore]
    rintro rfl
    have hle := hleast c ts next hfound
    rw [hcd.rest_left, List.nil_append] at hle
    omega
  · rw [if_neg hmore] at hfound
    cases hfound
    refine .inr ⟨?_, rfl, rfl⟩
    by_cases hcommon : common = []
    · exact hends c d (hcommon ▸ hcd)
    · rw [hsees c d (hcd.sees hcommon)]
      exact Bool.not_eq_true _ ▸ hmore

/-- Phrases that follow each other as long as they may, where none follows behind the shared
tokens. -/
theorem repeatWhile {more : Cursor → Bool} {p : Parser Tree}
    (hsees : ∀ c d, x.Sees true c d → more d = more c)
    (hends : ∀ c d, x.Shares rest last true [] c d → more d = false)
    (hend : ∀ c, c.rest = [] → more c = false) (htakes : p.Takes Tree.Spells)
    (hp : ∀ n, x.Echoes rest last true true n x.tree p p) :
    x.Echoes rest last true true n x.row (Parser.repeatWhile more (do return [← p]))
      (Parser.repeatWhile more (do return [← p])) := by
  have hsingle : (do return [← p] : Parser (List Tree)).Least 1 :=
    (Parser.Least.of_spells htakes).of_first fun _ => .pure _
  have hmany : (Parser.repeatWhile more (do return [← p])).Least 0 :=
    .of_row (.repeatWhile (.single htakes))
  have heq := Parser.repeatWhile_eq hend fun c ts next h => hsingle c ts next h
  intro common
  induction hlength : common.length using Nat.strong_induction_on generalizing common with
  | _ k ih =>
    intro c d ts next hcd hfound hspare
    rw [heq] at hfound ⊢
    have hround := hsingle.of_first (f := fun ts => do
      let us ← Parser.repeatWhile more (do return [← p])
      return ts ++ us) fun ts => hmany.of_first fun us => .pure _
    change ∃ common' next', (if more d then _ else _ : Parser (List Tree)) d = _ ∧ _
    rcases further hsees hends hround hcd hfound (by omega) with ⟨hmore, hfound⟩ | ⟨hmore, rfl, rfl⟩
    · obtain ⟨us, mid, hus, hothers⟩ := Parser.exists_found_of_bind hfound
      obtain ⟨vs, stop, hvs, hdone⟩ := Parser.exists_found_of_bind hothers
      cases hdone
      have hmid := hsingle c us mid hus
      have hstop := hmany mid vs next hvs
      obtain ⟨common', mid', hus', hmid'⟩ := single (hp n) common c d us mid hcd hus (by omega)
      have hshorter : common'.length < k := by
        rw [hmid'.rest_left, hcd.rest_left, List.length_append, List.length_append] at hmid
        omega
      obtain ⟨common'', next', hvs', hnext⟩ :=
        ih _ hshorter common' rfl mid mid' vs next hmid' hvs hspare
      refine ⟨common'', next', ?_, hnext⟩
      rw [if_pos hmore, Parser.bind_of_found hus', Parser.bind_of_found hvs', x.row_append]
      rfl
    · exact ⟨common, d, by rw [if_neg (Bool.eq_false_iff.mp hmore)]; rfl, hcd⟩

/-- A token that may be left out and has to touch the one before it. -/
theorem accept_tight (hsealed : x.Sealed last) (phrase : Phrase) {j : Kind}
    (hj : ∀ k ∈ [Kind.greater, .plus, .tilde, .leftBrace], k ≠ j) :
    x.Echoes rest last true true n x.row
      (do if (← Parser.here).isTight then Parser.accept phrase j else return [])
      (do if (← Parser.here).isTight then Parser.accept phrase j else return []) := by
  have hwhole (c : Cursor) :
      (do
        if (← Parser.here).isTight then Parser.accept phrase j
        else return [] : Parser (List Tree)) c =
        (if c.isTight && c.isAt j then (do return [← Parser.expect phrase j]) else Pure.pure [] :
          Parser (List Tree)) c := by
    change (if c.isTight then Parser.accept phrase j else Pure.pure [] : Parser (List Tree)) c = _
    cases c.isTight <;> rfl
  intro common c d ts next hcd hfound hspare
  rw [hwhole] at hfound ⊢
  have hleast : (do return [← Parser.expect phrase j] : Parser (List Tree)).Least 1 :=
    (Parser.Least.take _ _).of_first fun _ => .pure _
  have hsees (c d : Cursor) (hcd : x.Sees true c d) :
      (d.isTight && d.isAt j) = (c.isTight && c.isAt j) := by
    rw [hcd.isTight_eq rfl, hcd.isAt_eq]
  have hends (c d : Cursor) (hcd : x.Shares rest last true [] c d) :
      (d.isTight && d.isAt j) = false := by
    have hlast := hcd.not_tight hsealed (s := .ofList [j]) fun k hk => by simpa using hj k hk
    rwa [Cursor.isAtAny_ofList] at hlast
  rcases further hsees hends hleast hcd hfound (by omega) with ⟨hmore, hfound⟩ | ⟨hmore, rfl, rfl⟩
  · obtain ⟨common', next', hd, hnext⟩ :=
      single (expect phrase j) common c d ts next hcd hfound hspare
    exact ⟨common', next', by rw [if_pos hmore, hd], hnext⟩
  · exact ⟨common, d, by rw [if_neg (Bool.eq_false_iff.mp hmore)]; rfl, hcd⟩

end Echoes

end Transfer

namespace Parser

open Transfer

variable {x : Transfer} {rest : List Token} {last : Token} {near : Bool} {n : Nat}

/-- The test of an attribute is found in both texts, if a token is left behind it. -/
theorem attributeComparison_echoes :
    x.Echoes rest last true true (n + 1) x.row attributeComparison attributeComparison := by
  refine .here_bind (m := 0) (fun c => ?_) (Nat.succ_pos _) fun c d hcd => ?_
  · refine .ite (.of_second (.expect _ _) fun sign => .here_bind fun c => ?_) (.pure _)
    exact .ite (.of_second (.take _ _) fun value => .pure _) (.fail _ _)
  · rw [hcd.isAt_eq]
    split
    · refine (Echoes.expect _ _).bind (m := 0) (fun sign => ?_) fun sign => ?_
      · exact .here_bind fun c => .ite (.of_second (.take _ _) fun value => .pure _) (.fail _ _)
      · refine .here_bind (m := 0) (fun c => ?_) (Nat.succ_pos _) fun c d hcd => ?_
        · exact .ite (.of_second (.take _ _) fun value => .pure _) (.fail _ _)
        · rw [hcd.isAtAny_eq]
          split
          · exact (Echoes.take _ _).bind (m := 0) (fun value => .pure _) fun value => .pure rfl
          · exact .fail _ _
    · exact .pure rfl

theorem attributeSelector_echoes :
    x.Echoes rest last near true n x.tree attributeSelector attributeSelector := by
  have hright (left name : Tree) (test modifier : List Tree) : Least 1 (do
      let right ← expect .attributeSelector .rightBracket
      return left :: name :: test ++ modifier ++ [right] : Parser (List Tree)) :=
    (Least.take _ _).of_first fun right => .pure _
  have htest (left name : Tree) (test : List Tree) : Least 1 (do
      let modifier ← accept .attributeSelector .ident
      let right ← expect .attributeSelector .rightBracket
      return left :: name :: test ++ modifier ++ [right] : Parser (List Tree)) :=
    .of_second (.accept _ _) fun modifier => hright left name test modifier
  have hname (left name : Tree) : Least 1 (do
      let test ← attributeComparison
      let modifier ← accept .attributeSelector .ident
      let right ← expect .attributeSelector .rightBracket
      return left :: name :: test ++ modifier ++ [right] : Parser (List Tree)) :=
    .of_second attributeComparison_advances fun test => htest left name test
  refine .node ?_
  refine (Echoes.expect _ _).bind (fun left => .of_second (.expect _ _) fun name => hname left name)
    fun left => ?_
  refine (Echoes.expect _ _).bind (fun name => hname left name) fun name => ?_
  refine attributeComparison_echoes.bind (fun test => htest left name test) fun test => ?_
  refine (Echoes.accept _ _).bind (fun modifier => hright left name test modifier)
    fun modifier => ?_
  exact (Echoes.expect _ _).bind (m := 0) (fun right => .pure _) fun right => .pure (by simp)

section Sealed

variable (hsealed : x.Sealed last)

include hsealed

theorem name_echoes : x.Echoes rest last near true n x.tree name name := by
  have hmore (head : Tree) : Least 0 (do
      let more ← repeatWhile (fun c => c.isTight && c.isAtAny (.ofList [.ident, .atBraces])) do
        return [← take .name (.ofList [.ident, .atBraces])]
      return head :: more : Parser (List Tree)) :=
    .of_second (.repeatWhile (.single (.take _ _))) fun more => .pure _
  refine .node ((Echoes.take _ _).bind hmore fun head => ?_)
  refine Echoes.bind (m := 0) (.repeatWhile (fun c d hcd => ?_) (fun c d hcd => ?_) (fun c hc => ?_)
    (.take_spells _ _) fun n => .take _ _) (fun more => .pure _) fun more => .pure rfl
  · rw [hcd.isTight_eq rfl, hcd.isAtAny_eq]
  · exact hcd.not_tight hsealed (by decide)
  · rw [Cursor.isAtAny_of_rest_nil hc, Bool.and_false]

omit hsealed in
theorem pseudo_echoes : x.Echoes rest last near true n x.tree pseudo pseudo := by
  have hword (colon : Tree) (second : List Tree) (c : Cursor) : Least 1 (
      if !c.isTight then fail .pseudo (.ofList [.ident, .function])
      else do
        let word ← take .pseudo (.ofList [.ident, .function])
        let inner ← if c.isAt .function then balanced .pseudo else pure []
        return colon :: second ++ word :: inner : Parser (List Tree)) := by
    refine .ite (.fail _ _) ((Least.take _ _).of_first fun word => ?_)
    exact .ite (.of_second (.balanced _) fun inner => .pure _) (.pure _)
  have hsecond (colon : Tree) (c : Cursor) : Least 1 (do
      let second ← if c.isTight then accept .pseudo .colon else pure []
      let c ← here
      if !c.isTight then fail .pseudo (.ofList [.ident, .function])
      else do
        let word ← take .pseudo (.ofList [.ident, .function])
        let inner ← if c.isAt .function then balanced .pseudo else pure []
        return colon :: second ++ word :: inner : Parser (List Tree)) := by
    refine .ite (.of_second (.accept _ _) fun second => .here_bind (hword colon second)) ?_
    exact .of_second (.pure _) fun second => .here_bind (hword colon second)
  refine .node ((Echoes.expect _ _).bind (fun colon => .here_bind (hsecond colon)) fun colon => ?_)
  refine .here_bind (hsecond colon) (Nat.succ_pos _) fun c d hcd => ?_
  rw [hcd.isTight_eq rfl]
  refine Echoes.ite_bind (.accept _ _) (.pure rfl) (fun second => .here_bind (hword colon second))
    fun second => ?_
  refine .here_bind (hword colon second) (Nat.succ_pos _) fun c d hcd => ?_
  rw [hcd.isTight_eq rfl, hcd.isAt_eq]
  split
  · exact .fail _ _
  · refine (Echoes.take _ _).bind (m := 0) (fun word => ?_) fun word => ?_
    · exact .ite (.of_second (.balanced _) fun inner => .pure _) (.pure _)
    · refine Echoes.ite_bind (m := 0) (.balanced _) (.pure rfl) (fun inner => .pure _)
        fun inner => .pure ?_
      simp

theorem selectorPart_echoes : x.Echoes rest last near true n x.tree selectorPart selectorPart := by
  refine .node (.here_bind (m := 1) (fun c => ?_) (Nat.succ_pos _) fun c d hcd => ?_)
  · split
    · exact (Least.of_spells attributeSelector_takes).of_first fun _ => .pure _
    · exact (Least.of_spells pseudo_takes).of_first fun _ => .pure _
    · refine (Least.take _ _).of_first fun parent => .here_bind fun c => ?_
      exact .ite (.of_second (.accept _ _) fun tail => .pure _) (.pure _)
    · refine (Least.take _ _).of_first fun dot => .here_bind fun c => ?_
      exact .ite (.of_second name_advances fun name => .pure _) (.fail _ _)
    · exact (Least.take _ _).of_first fun _ => .pure _
  · rw [hcd.kind?_eq]
    split
    · exact .single attributeSelector_echoes
    · exact .single pseudo_echoes
    · refine (Echoes.expect _ _).bind (m := 0) (fun parent => .here_bind fun c => ?_)
        fun parent => ?_
      · exact .ite (.of_second (.accept _ _) fun tail => .pure _) (.pure _)
      · have htight : x.Echoes rest last true true n x.row
            (do if (← Parser.here).isTight then Parser.accept .selectorPart .ident else return [])
            (do
              if (← Parser.here).isTight then Parser.accept .selectorPart .ident else return []) :=
          Echoes.accept_tight hsealed .selectorPart (by decide)
        have hlook := htight.bind (m := 0)
          (f := fun tail => pure (parent :: tail)) (g := fun tail => pure (x.tree parent :: tail))
            (k := x.row)
          (fun tail => .pure _) fun tail => .pure rfl
        rwa [← here_ite_bind, ← here_ite_bind] at hlook
    · refine (Echoes.expect _ _).bind (m := 1) (fun dot => .here_bind fun c => ?_) fun dot => ?_
      · exact .ite ((Least.of_spells name_takes).of_first fun name => .pure _) (.fail _ _)
      · refine .here_bind (m := 1) (fun c => ?_) (Nat.succ_pos _) fun c d hcd => ?_
        · exact .ite ((Least.of_spells name_takes).of_first fun name => .pure _) (.fail _ _)
        · rw [hcd.isTight_eq rfl]
          split
          · exact (name_echoes hsealed).bind (m := 0) (fun name => .pure _) fun name => .pure rfl
          · exact .fail _ _
    · exact .single (.take _ _)

/-- A simple selector is found in both texts, by what was found for its parts. -/
theorem simpleSelector_echoes :
    x.Echoes rest last near true n x.tree simpleSelector simpleSelector := by
  have hparts (head : Tree) : Least 0 (do
      let more ← repeatWhile (fun c => c.isTight && startsHere c .selectorPart) do
        return [← selectorPart]
      return head :: more : Parser (List Tree)) :=
    .of_second (.repeatWhile (.single selectorPart_advances)) fun more => .pure _
  have hmore (head : Tree) : x.Echoes rest last true true n x.row
      (do
        let more ← repeatWhile (fun c => c.isTight && startsHere c .selectorPart) do
          return [← selectorPart]
        return head :: more)
      (do
        let more ← repeatWhile (fun c => c.isTight && startsHere c .selectorPart) do
          return [← selectorPart]
        return x.tree head :: more) := by
    refine Echoes.bind (m := 0)
      (.repeatWhile (fun c d hcd => ?_) (fun c d hcd => ?_) (fun c hc => ?_)
      selectorPart_takes fun n => selectorPart_echoes hsealed) (fun more => .pure _)
        fun more => .pure rfl
    · rw [hcd.isTight_eq rfl, hcd.startsHere_eq]
    · exact hcd.not_tight hsealed (by decide)
    · rw [Cursor.startsHere_of_rest_nil hc, Bool.and_false]
  refine .node (.here_bind (m := 1) (fun c => ?_) (Nat.succ_pos _) fun c d hcd => ?_)
  · dsimp only
    split
    · exact (Least.take _ _).of_first hparts
    · split
      · exact (Least.of_spells selectorPart_takes).of_first hparts
      · exact Least.of_first (.fail _ _) hparts
  · rw [hcd.startsHere_eq, hcd.startsHere_eq]
    dsimp only
    split
    · exact (Echoes.take _ _).bind (m := 0) hparts hmore
    · exact Echoes.ite_bind (m := 0) (selectorPart_echoes hsealed) (.fail _ _) hparts hmore

end Sealed

/-- **A simple selector is found again.**  Its tokens may stand elsewhere, if those touch that
touched, and before other tokens, if these do not go on with it. -/
theorem simpleSelector_again {c next : Cursor} {t : Tree} (h : simpleSelector c = .found t next)
    (x : Transfer) (hspaced : t.leaves.IsChain x.Spaced) {last : Token}
    (hlast : t.leaves.getLast? = some last) (hsealed : x.Sealed last) (previous : Option Token) :
    simpleSelector ⟨previous, t.leaves.map x.token ++ x.tail⟩ =
      .found (x.tree t) ⟨some (x.token last), x.tail⟩ := by
  have hrest : c.rest = t.leaves ++ next.rest := by
    have hc := simpleSelector_takes c
    rw [h] at hc
    obtain ⟨taken, hrest, hspells⟩ := hc
    rw [hspells.leaves, hrest]
  have hshares : x.Shares next.rest last false t.leaves c
      ⟨previous, t.leaves.map x.token ++ x.tail⟩ :=
    ⟨hrest, rfl, hspaced, nofun, by rw [hlast]; rfl⟩
  obtain ⟨common, ⟨previous', rest'⟩, hfound, hnext⟩ :=
    simpleSelector_echoes (n := 0) hsealed _ c _ t next hshares h (Nat.le_refl _)
  -- everything shared was taken
  obtain rfl : common = [] := List.self_eq_append_left.mp hnext.rest_left
  obtain rfl : rest' = x.tail := hnext.rest_right
  have hprevious : next.previous = some last := by simpa using hnext.last_eq
  have hprevious' : previous' = some (x.token last) :=
    (hnext.previous rfl).1.trans (congrArg (Option.map x.token) hprevious)
  rw [hfound, hprevious']

end Parser

end LessCss
