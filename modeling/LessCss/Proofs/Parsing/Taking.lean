import Mathlib.Data.List.Basic
import LessCss.Parser.Statement

/-!
# What a parser takes

A parser that finds something has taken some of the tokens behind its place, and one that fails has
at least not gone back.  `Parser.Takes p post` says this of a parser `p`, and that what was taken
and what was found satisfy `post`.  There is one rule for each way of putting parsers together, so
that the claim about a phrase is proved by going through its definition once, from its first step to
its last.

The statement that everything is about: a phrase spells what was taken for it (`Tree.Spells`).
Phrases with statements inside may have left something out, but only where a mismatch was noted
(`Tree.Keeps`).
-/

namespace LessCss

namespace Tree

@[simp] theorem leaves_leaf (t : Token) : (leaf t).leaves = [t] := rfl

@[simp] theorem leaves_node (p : Phrase) (ts : List Tree) : (node p ts).leaves = leavesOf ts := rfl

@[simp] theorem leavesOf_nil : leavesOf [] = [] := rfl

@[simp] theorem leavesOf_cons (t : Tree) (ts : List Tree) :
    leavesOf (t :: ts) = t.leaves ++ leavesOf ts := rfl

@[simp] theorem leavesOf_append (ts us : List Tree) :
    leavesOf (ts ++ us) = leavesOf ts ++ leavesOf us := by
  induction ts with
  | nil => rfl
  | cons t ts ih => simp [ih]

mutual
/-- Every rule set or mixin in a tree has a selector in front. -/
def Selected : Tree → Prop
  | leaf _ => True
  | node p ts =>
    (p = .rulesetOrMixin → ∃ list parts, ts = list :: parts ∧ ∃ s ∈ list.children,
      s.phrase?.isSome) ∧
      SelectedAll ts
/-- The same for every tree of a row. -/
def SelectedAll : List Tree → Prop
  | [] => True
  | t :: ts => Selected t ∧ SelectedAll ts
end

theorem selectedAll_iff {ts : List Tree} : SelectedAll ts ↔ ∀ t ∈ ts, t.Selected := by
  induction ts with
  | nil => simp [SelectedAll]
  | cons t ts ih => simp [SelectedAll, ih]

mutual
/-- No rule set or mixin stands anywhere in a tree. -/
def Plain : Tree → Prop
  | leaf _ => True
  | node p ts => p ≠ .rulesetOrMixin ∧ PlainAll ts
/-- The same for every tree of a row. -/
def PlainAll : List Tree → Prop
  | [] => True
  | t :: ts => Plain t ∧ PlainAll ts
end

theorem plainAll_iff {ts : List Tree} : PlainAll ts ↔ ∀ t ∈ ts, t.Plain := by
  induction ts with
  | nil => simp [PlainAll]
  | cons t ts ih => simp [PlainAll, ih]

mutual
/-- Where no rule set stands, every rule set has a selector in front. -/
theorem Plain.selected {t : Tree} (h : t.Plain) : t.Selected := by
  cases t with
  | leaf x => trivial
  | node p ts => exact ⟨fun hp => absurd hp h.1, PlainAll.selected h.2⟩
theorem PlainAll.selected {ts : List Tree} (h : PlainAll ts) : SelectedAll ts := by
  cases ts with
  | nil => trivial
  | cons t ts => exact ⟨h.1.selected, h.2.selected⟩
end

/-- What stands behind the first part of a sum or product: signs out of some kinds, each with a
further part. -/
def JoinedBy (kinds : List Kind) (part : Phrase) : List Tree → Prop
  | [] => True
  | [_] => False
  | sign :: t :: rest =>
    (∃ x, sign = leaf x ∧ x.kind ∈ kinds) ∧ t.phrase? = some part ∧ JoinedBy kinds part rest

/-- Which parts the phrases of values and of media queries have.  The parts of a product have
tokens. -/
def Arrangement : Phrase → List Tree → Prop
  | .value, ts => ∀ t ∈ ts, t.phrase?.all (· = .expression)
  | .expression, ts => ∀ t ∈ ts, t.phrase? = some .sum
  | .sum, head :: rest => head.phrase? = some .product ∧ JoinedBy [.plus, .minus] .product rest
  | .product, head :: rest =>
    head.phrase? = some .operand ∧ JoinedBy [.star, .slash] .operand rest ∧ ∀ t ∈ head :: rest,
      t.leaves ≠ []
  | .operand, [x] => x.phrase?.all (· = .parens)
  | .operand, [_, x] => x.phrase?.all (· = .operand)
  | .operand, [_, x, _] => x.phrase? = some .value
  | .parens, ts => ∀ t ∈ ts, t.phrase?.all (· = .value)
  | .mediaQuery, ts => ∀ t ∈ ts, t.phrase?.all (· = .parens)
  | _, _ => True

mutual
/-- The values in a tree are put together as values are. -/
def Arranged : Tree → Prop
  | leaf _ => True
  | node p ts => Arrangement p ts ∧ ArrangedAll ts
/-- The same for every tree of a row. -/
def ArrangedAll : List Tree → Prop
  | [] => True
  | t :: ts => Arranged t ∧ ArrangedAll ts
end

theorem arrangedAll_iff {ts : List Tree} : ArrangedAll ts ↔ ∀ t ∈ ts, t.Arranged := by
  induction ts with
  | nil => simp [ArrangedAll]
  | cons t ts ih => simp [ArrangedAll, ih]

/-- Whether a phrase is neither a media query nor a value or a part of one. -/
def isBeyondValues : Phrase → Bool
  | .value | .expression | .sum | .product | .operand | .parens | .mediaQuery => false
  | _ => true

/-- Phrases other than those of values may have any parts. -/
theorem arrangement_beyond {p : Phrase} (hp : isBeyondValues p = true) (ts : List Tree) :
    Arrangement p ts := by
  cases p
  case value | expression | sum | product | operand | parens | mediaQuery => cases hp
  all_goals trivial

/-- A tree spells some tokens: they are its leaves, and there is at least one. -/
structure Spells (taken : List Token) (t : Tree) : Prop where
  leaves : t.leaves = taken
  nonempty : taken ≠ []
  plain : t.Plain
  arranged : t.Arranged

/-- A phrase of a given sort spells some tokens. -/
def SpellsAs (phrase : Phrase) (taken : List Token) (t : Tree) : Prop :=
  Spells taken t ∧ t.phrase? = some phrase

/-- The trees of a row, one after the other, spell some tokens. -/
structure SpellsRow (taken : List Token) (ts : List Tree) : Prop where
  leaves : leavesOf ts = taken
  nonempty : ∀ t ∈ ts, t.leaves ≠ []
  plain : ∀ t ∈ ts, t.Plain
  arranged : ∀ t ∈ ts, t.Arranged

theorem Spells.leaf (x : Token) : Spells [x] (leaf x) :=
  ⟨rfl, List.cons_ne_nil _ _, trivial, trivial⟩

namespace SpellsRow

variable {taken more : List Token} {t : Tree} {ts us : List Tree}

theorem nil : SpellsRow [] [] := ⟨rfl, by simp, by simp, by simp⟩

theorem cons (h : Spells taken t) (hs : SpellsRow more ts) :
    SpellsRow (taken ++ more) (t :: ts) where
  leaves := by rw [leavesOf_cons, h.leaves, hs.leaves]
  nonempty := List.forall_mem_cons.mpr ⟨h.leaves ▸ h.nonempty, hs.nonempty⟩
  plain := List.forall_mem_cons.mpr ⟨h.plain, hs.plain⟩
  arranged := List.forall_mem_cons.mpr ⟨h.arranged, hs.arranged⟩

/-- Rows that spell some tokens spell them side by side. -/
theorem append (h : SpellsRow taken ts) (hs : SpellsRow more us) :
    SpellsRow (taken ++ more) (ts ++ us) where
  leaves := by rw [leavesOf_append, h.leaves, hs.leaves]
  nonempty := List.forall_mem_append.mpr ⟨h.nonempty, hs.nonempty⟩
  plain := List.forall_mem_append.mpr ⟨h.plain, hs.plain⟩
  arranged := List.forall_mem_append.mpr ⟨h.arranged, hs.arranged⟩

theorem ne_nil (h : SpellsRow taken ts) (hts : ts ≠ []) : taken ≠ [] := by
  cases ts with
  | nil => exact absurd rfl hts
  | cons t ts =>
    rw [← h.leaves, leavesOf_cons]
    exact List.append_ne_nil_of_left_ne_nil (h.nonempty t List.mem_cons_self) _

/-- A row becomes a phrase. -/
theorem arrangedNode {p : Phrase} (hp : p ≠ .rulesetOrMixin) (h : SpellsRow taken ts)
    (hts : ts ≠ []) (harranged : Arrangement p ts) : Spells taken (node p ts) :=
  ⟨h.leaves, h.ne_nil hts, ⟨hp, plainAll_iff.mpr h.plain⟩, harranged,
    arrangedAll_iff.mpr h.arranged⟩

/-- A phrase whose parts spell some tokens spells them itself. -/
theorem node {p : Phrase} (hp : p ≠ .rulesetOrMixin ∧ isBeyondValues p = true)
    (h : SpellsRow taken ts) (hts : ts ≠ []) : Spells taken (node p ts) :=
  h.arrangedNode hp.1 hts (arrangement_beyond hp.2 ts)

end SpellsRow

end Tree

/-! ## Parsers -/

/-- An outcome of parsing at the given tokens: what was found goes with the tokens that were taken
for it, and a failure leaves a part of the tokens behind. -/
def Outcome.Within {α : Type} (tokens : List Token) (post : List Token → α → Prop) :
    Outcome α → Prop
  | .found a next => ∃ taken, tokens = taken ++ next.rest ∧ post taken a
  | .failed _ next => next.rest <:+ tokens

theorem Outcome.Within.mono {α : Type} {tokens : List Token} {P Q : List Token → α → Prop}
    {o : Outcome α} (h : o.Within tokens P) (hPQ : ∀ taken a, P taken a → Q taken a) :
    o.Within tokens Q := by
  cases o with
  | found a next =>
    obtain ⟨taken, htokens, hP⟩ := h
    exact ⟨taken, htokens, hPQ _ _ hP⟩
  | failed m next => exact h

namespace Parser

variable {α β : Type}

section Steps

variable {p : Parser α} {f : α → Parser β} {c next : Cursor}

theorem bind_of_found {a : α} (h : p c = .found a next) : (p >>= f) c = f a next := by
  change p.andThen f c = _
  rw [andThen, h]

theorem bind_of_failed {m : Mismatch} (h : p c = .failed m next) :
    (p >>= f) c = .failed m next := by
  change p.andThen f c = _
  rw [andThen, h]

/-- Two steps find something only if both of them do. -/
theorem exists_found_of_bind {b : β} {last : Cursor} (h : (p >>= f) c = .found b last) :
    ∃ a next, p c = .found a next ∧ f a next = .found b last := by
  cases hp : p c with
  | found a next => exact ⟨a, next, rfl, by rwa [bind_of_found hp] at h⟩
  | failed m next =>
    rw [bind_of_failed hp] at h
    cases h

theorem node_of_found {p : Parser (List Tree)} {ts : List Tree} (h : p c = .found ts next)
    (phrase : Phrase) :
    node phrase p c = .found (.node phrase ts) next := bind_of_found h

theorem node_of_failed {p : Parser (List Tree)} {m : Mismatch} {phrase : Phrase}
    (h : p c = .failed m next) :
    node phrase p c = .failed m next := bind_of_failed h

theorem attempt_of_found {a : α} (h : p c = .found a next) :
    attempt p c = .found (some a) next := by
  rw [attempt, h]

/-- Where a phrase that was tried fails, one is where one was before. -/
theorem attempt_of_failed {m : Mismatch} (h : p c = .failed m next) :
    attempt p c = .found none c := by
  rw [attempt, h]

end Steps

/-- What a parser finds goes with the tokens that it takes. -/
def Takes (p : Parser α) (post : List Token → α → Prop) : Prop := ∀ c, (p c).Within c.rest post

namespace Takes

variable {P : List Token → α → Prop} {Q : List Token → β → Prop}

theorem mono {p : Parser α} {P' : List Token → α → Prop} (h : p.Takes P)
    (hP : ∀ taken a, P taken a → P' taken a) : p.Takes P' := fun c => (h c).mono hP

theorem pure {a : α} (h : P [] a) : (Pure.pure a : Parser α).Takes P := fun _ => ⟨[], rfl, h⟩

/-- One parser after the other takes what both take. -/
theorem bind {p : Parser α} {f : α → Parser β} (hp : p.Takes P)
    (hf : ∀ a taken, P taken a → (f a).Takes fun more b => Q (taken ++ more) b) :
    (p >>= f).Takes Q := by
  intro c
  have hc := hp c
  cases h : p c with
  | failed m next =>
    rw [h] at hc
    rw [bind_of_failed h]
    exact hc
  | found a next =>
    rw [h] at hc
    obtain ⟨taken, hrest, hP⟩ := hc
    have hnext := hf a taken hP next
    rw [bind_of_found h]
    cases hfa : f a next with
    | failed m last =>
      rw [hfa] at hnext
      exact hrest ▸ hnext.trans (List.suffix_append _ _)
    | found b last =>
      rw [hfa] at hnext
      obtain ⟨more, hmore, hQ⟩ := hnext
      exact ⟨taken ++ more, by rw [hrest, hmore, List.append_assoc], hQ⟩

theorem here : Parser.here.Takes fun taken _ => taken = [] := fun _ => ⟨[], rfl, rfl⟩

/-- To look where one is takes nothing. -/
theorem here_bind {f : Cursor → Parser β} (hf : ∀ c, (f c).Takes Q) : (Parser.here >>= f).Takes Q :=
  here.bind fun c taken h => by
    subst h
    exact hf c

/-- A choice between two parsers, with the same steps behind both. -/
theorem ite_bind {b : Bool} {p q : Parser α} {f : α → Parser β} (hp : p.Takes P) (hq : q.Takes P)
    (hf : ∀ a taken, P taken a → (f a).Takes fun more b => Q (taken ++ more) b) :
    (if b then p >>= f else q >>= f).Takes Q := by
  cases b with
  | true => exact hp.bind hf
  | false => exact hq.bind hf

theorem fail (phrase : Phrase) (wanted : KindSet) :
    (Parser.fail phrase wanted : Parser α).Takes P :=
  fun _ => List.suffix_rfl

/-- Taking a token gives a leaf of one of the wanted kinds, and takes this token. -/
theorem take (phrase : Phrase) (wanted : KindSet) :
    (Parser.take phrase wanted).Takes fun taken t =>
      ∃ x, taken = [x] ∧ t = .leaf x ∧ wanted.contains x.kind = true := by
  intro c
  unfold Parser.take
  split
  · rename_i t ts hrest
    split
    · next hwanted => exact ⟨[t], hrest, t, rfl, rfl, hwanted⟩
    · exact List.suffix_rfl
  · exact List.suffix_rfl

/-- An attempt takes what the parser takes, or nothing. -/
theorem attempt {p : Parser α} (hp : p.Takes P) :
    (Parser.attempt p).Takes fun taken o => (∃ a, o = some a ∧ P taken a) ∨ o = none ∧
    taken = [] := by
  intro c
  have hc := hp c
  unfold Parser.attempt
  cases h : p c with
  | failed m next => exact ⟨[], rfl, .inr ⟨rfl, rfl⟩⟩
  | found a next =>
    rw [h] at hc
    obtain ⟨taken, hrest, hP⟩ := hc
    exact ⟨taken, hrest, .inl ⟨a, rfl, hP⟩⟩

/-! ### Trees -/

open LessCss.Tree

theorem take_spells (phrase : Phrase) (wanted : KindSet) :
    (Parser.take phrase wanted).Takes Spells :=
  (take phrase wanted).mono fun taken t ⟨x, htaken, ht, _⟩ => by
    rw [htaken, ht]
    exact .leaf x

/-- A token is no phrase. -/
theorem take_leaf (phrase : Phrase) (wanted : KindSet) :
    (Parser.take phrase wanted).Takes fun taken t => Spells taken t ∧ t.phrase? = none :=
  (take phrase wanted).mono fun taken t ⟨x, htaken, ht, _⟩ => by
    rw [htaken, ht]
    exact ⟨.leaf x, rfl⟩

theorem expect (phrase : Phrase) (k : Kind) : (Parser.expect phrase k).Takes Spells :=
  take_spells phrase (.ofList [k])

/-- A parser that finds one tree finds a row of one. -/
theorem single {p : Parser Tree} (hp : p.Takes Spells) :
    (do return [← p] : Parser (List Tree)).Takes SpellsRow :=
  hp.bind fun _ _ h => pure (.cons h .nil)

/-- A phrase that may be left out, with the same steps behind it in both cases. -/
theorem optional_bind {b : Bool} {p : Parser Tree} {f : List Tree → Parser β} (hp : p.Takes Spells)
    (hf : ∀ ts taken, SpellsRow taken ts → (f ts).Takes fun more b => Q (taken ++ more) b) :
    (if b then (do let t ← p; let ts ← Pure.pure [t]; f ts)
      else (do let ts ← Pure.pure []; f ts)).Takes
      Q := by
  cases b with
  | true => exact hp.bind fun t taken h => hf [t] taken (by simpa using SpellsRow.cons h .nil)
  | false => exact hf [] [] .nil

theorem accept (phrase : Phrase) (k : Kind) : (Parser.accept phrase k).Takes SpellsRow := by
  refine here_bind fun c => ?_
  split
  · exact single (expect phrase k)
  · exact pure .nil

/-- A parser of a phrase finds that phrase, with what was found for its parts. -/
theorem node_of {phrase : Phrase} {p : Parser (List Tree)} {P : List Tree → Prop}
    (hphrase : phrase ≠ .rulesetOrMixin ∧ isBeyondValues phrase = true)
    (hp : p.Takes fun taken ts => (SpellsRow taken ts ∧ ts ≠ []) ∧ P ts) :
    (Parser.node phrase p).Takes fun taken t => Spells taken t ∧ ∃ ts, t = .node phrase ts ∧ P ts :=
  hp.bind fun ts _ h => pure ⟨by simpa using h.1.1.node hphrase h.1.2, ts, rfl, h.2⟩

/-- Putting a phrase around what was found spells the same tokens. -/
theorem node {phrase : Phrase} {p : Parser (List Tree)}
    (hphrase : phrase ≠ .rulesetOrMixin ∧ isBeyondValues phrase = true)
    (hp : p.Takes fun taken ts => SpellsRow taken ts ∧ ts ≠ []) :
    (Parser.node phrase p).Takes Spells :=
  hp.bind fun _ _ h => pure (by simpa using h.1.node hphrase h.2)

/-- Rows of which `I` holds, one after the other, are a row of which `P` holds. -/
theorem repeatWhile_of (more : Cursor → Bool) {item : Parser (List Tree)} {I P : List Tree → Prop}
    (hnil : P []) (happend : ∀ ts us, I ts → P us → P (ts ++ us))
    (hitem : item.Takes fun taken ts => SpellsRow taken ts ∧ I ts) :
    (Parser.repeatWhile more item).Takes fun taken ts => SpellsRow taken ts ∧ P ts := by
  have hwithin (bound : Nat) : (repeatWithin more item bound).Takes fun taken ts =>
    SpellsRow taken ts ∧ P ts := by
    induction bound with
    | zero => exact pure ⟨.nil, hnil⟩
    | succ bound ih =>
      refine here_bind fun c => ?_
      split
      · refine hitem.bind fun ts _ ⟨hts, hI⟩ => ih.bind fun us _ ⟨hus, hP⟩ =>
          pure ⟨?_, happend ts us hI hP⟩
        simpa using hts.append hus
      · exact pure ⟨.nil, hnil⟩
  exact fun c => hwithin c.rest.length c

/-- A repetition spells what its rounds spell. -/
theorem repeatWhile {more : Cursor → Bool} {item : Parser (List Tree)}
    (hitem : item.Takes SpellsRow) :
    (Parser.repeatWhile more item).Takes SpellsRow :=
  (repeatWhile_of more (I := fun _ => True) (P := fun _ => True) trivial (fun _ _ _ _ => trivial)
    (hitem.mono fun _ _ h => ⟨h, trivial⟩)).mono fun _ _ h => h.1

/-- What holds of all parts of each round holds of all parts of a repetition. -/
theorem repeatWhile_all (more : Cursor → Bool) {item : Parser (List Tree)} {P : Tree → Prop}
    (hitem : item.Takes fun taken ts => SpellsRow taken ts ∧ ∀ t ∈ ts, P t) :
    (Parser.repeatWhile more item).Takes fun taken ts => SpellsRow taken ts ∧ ∀ t ∈ ts, P t :=
  repeatWhile_of more nofun (fun _ _ hts hus => List.forall_mem_append.mpr ⟨hts, hus⟩) hitem

/-- Parts that are phrases of one sort, joined by signs. -/
theorem joined {more : Cursor → Bool} {part : Parser Tree} {phrase sort : Phrase}
    {kinds : List Kind} (hpart : part.Takes (SpellsAs sort)) :
    (do
      let head ← part
      let rest ← Parser.repeatWhile more do return [← Parser.take phrase (.ofList kinds), ← part]
      return head :: rest : Parser (List Tree)).Takes fun taken ts =>
        (SpellsRow taken ts ∧ ts ≠ []) ∧
        ∃ head rest, ts = head :: rest ∧ head.phrase? = some sort ∧ JoinedBy kinds sort rest := by
  have hitem : (do return [← Parser.take phrase (.ofList kinds), ← part] : Parser (List Tree)).Takes
      fun taken ts => SpellsRow taken ts ∧ ∃ x t, ts = [.leaf x, t] ∧ x.kind ∈ kinds ∧
        t.phrase? = some sort := by
    refine (take phrase _).bind fun sign taken ⟨x, htaken, hsign, hkind⟩ => ?_
    refine hpart.bind fun t _ ⟨ht, hsort⟩ => pure ?_
    subst htaken hsign
    rw [KindSet.contains_ofList, List.contains_iff_mem] at hkind
    exact ⟨by simpa using SpellsRow.cons (.leaf x) (.cons ht .nil), x, t, rfl, hkind, hsort⟩
  have hrest := repeatWhile_of more (P := JoinedBy kinds sort) trivial ?_ hitem
  · refine hpart.bind fun head _ ⟨hhead, hsort⟩ => hrest.bind fun rest _ ⟨hrest, hjoined⟩ =>
      pure ⟨⟨?_, ?_⟩, ?_⟩
    · simpa using SpellsRow.cons hhead hrest
    · exact List.cons_ne_nil _ _
    · exact ⟨head, rest, rfl, hsort, hjoined⟩
  · rintro ts us ⟨x, t, rfl, hkind, hsort⟩ hus
    exact ⟨⟨x, rfl, hkind⟩, hsort, hus⟩

/-- A phrase of values finds that phrase, if its parts are arranged as they should be. -/
theorem arrangedNode {phrase : Phrase} {p : Parser (List Tree)} (hphrase : phrase ≠ .rulesetOrMixin)
    (hp : p.Takes fun taken ts => (SpellsRow taken ts ∧ ts ≠ []) ∧ Arrangement phrase ts) :
    (Parser.node phrase p).Takes (SpellsAs phrase) :=
  hp.bind fun _ _ ⟨⟨h, hts⟩, harranged⟩ =>
    pure ⟨by simpa using h.arrangedNode hphrase hts harranged, rfl⟩

/-- What goes on behind a token takes that token too. -/
theorem within_behind {t : Token} {ts : List Token} {o : Outcome (List Tree)}
    (h : o.Within ts SpellsRow) :
    (match o with
      | .found rest next => Outcome.found (Tree.leaf t :: rest) next
      | .failed m next => .failed m next).Within (t :: ts) SpellsRow := by
  cases o with
  | failed m next => exact List.IsSuffix.trans h (List.suffix_cons _ _)
  | found rest next =>
    obtain ⟨taken, hts, hrest⟩ := h
    exact ⟨t :: taken, by rw [hts]; rfl, SpellsRow.cons (.leaf t) hrest⟩

/-- Balanced parentheses spell all tokens in them. -/
theorem balanced (phrase : Phrase) : (Parser.balanced phrase).Takes SpellsRow := by
  have hfrom (ts : List Token) : ∀ depth previous,
      (takeBalanced phrase depth previous ts).Within ts SpellsRow := by
    induction ts with
    | nil => exact fun _ _ => List.suffix_rfl
    | cons t ts ih =>
      intro depth previous
      unfold takeBalanced
      dsimp only
      split
      · exact within_behind (ih _ _)
      · exact within_behind (ih _ _)
      · exact within_behind (ih _ _)
      · split
        · exact ⟨[t], rfl, SpellsRow.cons (.leaf t) .nil⟩
        · exact within_behind (ih _ _)
      · exact List.suffix_rfl
      · exact List.suffix_rfl
      · exact List.suffix_rfl
      · exact within_behind (ih _ _)
  exact fun c => hfrom c.rest 0 c.previous

end Takes

end Parser

/-! ## Recovering parsers -/

namespace Tree

/-- A tree keeps of the tokens that were taken at least all between mismatches: its leaves stand
among them, and are all of them if nothing was noted. -/
structure Keeps (noted : List Mismatch) (taken : List Token) (t : Tree) : Prop where
  leaves : t.leaves.Sublist taken
  whole : noted = [] → t.leaves = taken
  nonempty : taken ≠ []
  selected : t.Selected
  arranged : t.Arranged

/-- The same for the trees of a row, which may be empty. -/
structure KeepsRow (noted : List Mismatch) (taken : List Token) (ts : List Tree) : Prop where
  leaves : (leavesOf ts).Sublist taken
  whole : noted = [] → leavesOf ts = taken
  selected : ∀ t ∈ ts, t.Selected
  arranged : ∀ t ∈ ts, t.Arranged

/-- A tree that spells tokens keeps them, with nothing noted. -/
theorem Spells.keeps {taken : List Token} {t : Tree} (h : Spells taken t) : Keeps [] taken t :=
  ⟨h.leaves ▸ List.Sublist.refl _, fun _ => h.leaves, h.nonempty, h.plain.selected, h.arranged⟩

theorem SpellsRow.keeps {taken : List Token} {ts : List Tree} (h : SpellsRow taken ts) :
    KeepsRow [] taken ts :=
  ⟨h.leaves ▸ List.Sublist.refl _, fun _ => h.leaves, fun t ht => (h.plain t ht).selected,
    h.arranged⟩

namespace KeepsRow

variable {noted noted' : List Mismatch} {taken more : List Token} {t : Tree} {ts us : List Tree}

/-- Rows keep of tokens side by side what each of them keeps. -/
theorem append (h : KeepsRow noted taken ts) (hs : KeepsRow noted' more us) :
    KeepsRow (noted ++ noted') (taken ++ more) (ts ++ us) where
  leaves := by
    rw [leavesOf_append]
    exact h.leaves.append hs.leaves
  whole hnoted := by
    obtain ⟨hn, hn'⟩ := List.append_eq_nil_iff.mp hnoted
    rw [leavesOf_append, h.whole hn, hs.whole hn']
  selected := List.forall_mem_append.mpr ⟨h.selected, hs.selected⟩
  arranged := List.forall_mem_append.mpr ⟨h.arranged, hs.arranged⟩

theorem single (h : Keeps noted taken t) : KeepsRow noted taken [t] where
  leaves := by simpa using h.leaves
  whole hnoted := by simpa using h.whole hnoted
  selected := by simpa using h.selected
  arranged := by simpa using h.arranged

theorem cons (h : Keeps noted taken t) (hs : KeepsRow noted' more ts) :
    KeepsRow (noted ++ noted') (taken ++ more) (t :: ts) := (single h).append hs

/-- Where a mismatch was noted, further tokens may have been left out. -/
theorem skip (noted : List Mismatch) (m : Mismatch) (skipped : List Token)
    (h : KeepsRow noted' more ts) :
    KeepsRow (noted ++ m :: noted') (skipped ++ more) ts :=
  ⟨h.leaves.trans (List.sublist_append_right _ _), fun hnil => by simp at hnil, h.selected,
    h.arranged⟩

/-- A row becomes a phrase. -/
theorem node {p : Phrase} (hp : p ≠ .rulesetOrMixin ∧ isBeyondValues p = true)
    (h : KeepsRow noted taken ts) (htaken : taken ≠ []) : Keeps noted taken (node p ts) :=
  ⟨h.leaves, h.whole, htaken, ⟨fun hr => absurd hr hp.1, selectedAll_iff.mpr h.selected⟩,
    ⟨arrangement_beyond hp.2 ts, arrangedAll_iff.mpr h.arranged⟩⟩

end KeepsRow

end Tree

namespace Recovering

variable {α β : Type}

section Steps

variable {p : Recovering α} {f : α → Recovering β} {noted : List Mismatch} {c next : Cursor}

theorem bind_of_found {a : α} (h : p c = ⟨noted, .found a next⟩) :
    (p >>= f) c = ⟨noted ++ (f a next).noted, (f a next).outcome⟩ := by
  change p.andThen f c = _
  rw [andThen, h]

theorem bind_of_failed {m : Mismatch} (h : p c = ⟨noted, .failed m next⟩) :
    (p >>= f) c = ⟨noted, .failed m next⟩ := by
  change p.andThen f c = _
  rw [andThen, h]

/-- To put what is found into something larger notes nothing. -/
theorem map_of_found {g : α → β} {a : α} (h : p c = ⟨noted, .found a next⟩) :
    (do return g (← p) : Recovering β) c = ⟨noted, .found (g a) next⟩ :=
  (bind_of_found h).trans (congrArg (Recovered.mk · _) (List.append_nil noted))

/-- Behind a step that notes nothing only what follows is noted. -/
theorem lift_bind_of_found {p : Parser α} {a : α} (h : p c = .found a next) :
    ((p : Recovering α) >>= f) c = f a next :=
  bind_of_found (p := ofParser p) (congrArg (Recovered.mk []) h)

theorem lift_bind_of_failed {p : Parser α} {m : Mismatch} (h : p c = .failed m next) :
    ((p : Recovering α) >>= f) c = ⟨[], .failed m next⟩ :=
  bind_of_failed (p := ofParser p) (congrArg (Recovered.mk []) h)

/-- Two steps find something only if both of them do. -/
theorem exists_found_of_bind {b : β} {last : Cursor} (h : ((p >>= f) c).outcome = .found b last) :
    ∃ a next, (p c).outcome = .found a next ∧ (f a next).outcome = .found b last := by
  rcases hp : p c with ⟨noted, outcome⟩
  cases outcome with
  | found a next => exact ⟨a, next, rfl, by rwa [bind_of_found hp] at h⟩
  | failed m next =>
    rw [bind_of_failed hp] at h
    cases h

end Steps

/-- What a recovering parser finds goes with the mismatches that it notes and the tokens that it
takes. -/
def Takes (p : Recovering α) (post : List Mismatch → List Token → α → Prop) : Prop :=
  ∀ c, (p c).outcome.Within c.rest (post (p c).noted)

namespace Takes

variable {P : List Mismatch → List Token → α → Prop} {Q : List Mismatch → List Token → β → Prop}

theorem mono {p : Recovering α} {P' : List Mismatch → List Token → α → Prop} (h : p.Takes P)
    (hP : ∀ noted taken a, P noted taken a → P' noted taken a) : p.Takes P' :=
  fun c => (h c).mono (hP _)

theorem pure {a : α} (h : P [] [] a) : (Pure.pure a : Recovering α).Takes P := fun _ => ⟨[], rfl, h⟩

/-- A parser that may note mismatches takes what it takes without, and notes nothing. -/
theorem lift {p : Parser α} {P : List Token → α → Prop} (h : p.Takes P) :
    (ofParser p).Takes fun noted taken a => noted = [] ∧ P taken a :=
  fun c => (h c).mono fun _ _ hP => ⟨rfl, hP⟩

theorem fail (phrase : Phrase) (wanted : KindSet) :
    (ofParser (Parser.fail phrase wanted)).Takes P :=
  fun _ => List.suffix_rfl

/-- One parser after the other notes what both note and takes what both take. -/
theorem bind {p : Recovering α} {f : α → Recovering β} (hp : p.Takes P)
    (hf : ∀ a noted taken, P noted taken a →
      (f a).Takes fun noted' more b => Q (noted ++ noted') (taken ++ more) b) :
    (p >>= f).Takes Q := by
  intro c
  have hc := hp c
  rcases h : p c with ⟨noted, outcome⟩
  rw [h] at hc
  cases outcome with
  | failed m next =>
    rw [bind_of_failed h]
    exact hc
  | found a next =>
    obtain ⟨taken, hrest, hP⟩ := hc
    have hnext := hf a noted taken hP next
    rw [bind_of_found h]
    dsimp only
    cases hfa : (f a next).outcome with
    | failed m last =>
      rw [hfa] at hnext
      exact hrest ▸ hnext.trans (List.suffix_append _ _)
    | found b last =>
      rw [hfa] at hnext
      obtain ⟨more, hmore, hQ⟩ := hnext
      exact ⟨taken ++ more, by rw [hrest, hmore, List.append_assoc], hQ⟩

/-- A step that notes nothing. -/
theorem lift_bind {p : Parser α} {f : α → Recovering β} {P : List Token → α → Prop} (hp : p.Takes P)
    (hf : ∀ a taken, P taken a → (f a).Takes fun noted more b => Q noted (taken ++ more) b) :
    ((p : Recovering α) >>= f).Takes Q :=
  (lift hp).bind fun a noted taken h => by
    rw [h.1]
    exact hf a taken h.2

/-- To look where one is takes nothing. -/
theorem here_bind {f : Cursor → Recovering β} (hf : ∀ c, (f c).Takes Q) :
    (((Parser.here : Parser Cursor) : Recovering Cursor) >>= f).Takes Q :=
  lift_bind .here fun c taken h => by
    subst h
    exact hf c

/-- A step that gives the whole result and notes nothing. -/
theorem lift_tree {p : Parser Tree} (hp : p.Takes Tree.Spells) : (ofParser p).Takes Tree.Keeps :=
  (lift hp).mono fun _ _ _ h => h.1 ▸ h.2.keeps

theorem lift_row {p : Parser (List Tree)} (hp : p.Takes Tree.SpellsRow) :
    (ofParser p).Takes Tree.KeepsRow :=
  (lift hp).mono fun _ _ _ h => h.1 ▸ h.2.keeps

theorem node {phrase : Phrase} {p : Recovering (List Tree)}
    (hphrase : phrase ≠ .rulesetOrMixin ∧ Tree.isBeyondValues phrase = true)
    (hp : p.Takes fun noted taken ts => Tree.KeepsRow noted taken ts ∧ taken ≠ []) :
    (Parser.recoveringNode phrase p).Takes Tree.Keeps :=
  hp.bind fun _ _ _ h => pure (by simpa using h.1.node hphrase h.2)

end Takes

end Recovering

end LessCss
