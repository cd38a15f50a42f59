import LessCss.Proofs.Lexing.Spelling
import LessCss.Proofs.Parsing.Taking

/-!
# What a parser finds

`Parser.Finds bound p P` says that whatever a parser `p` finds satisfies `P`, as long as the tokens
are spelled as their kinds say and no more than `bound` are left.  The tokens behind what was found
are then of the same sort, so that the rules for putting parsers together need not speak of them.
For a recovering parser, only what is found without noting a mismatch counts.

`Takes` says which tokens go with what was found; here it matters only which trees there can be.
-/

namespace LessCss

/-- Tokens that are spelled as their kinds say, and no more of them than `bound`. -/
structure Ready (bound : Nat) (tokens : List Token) : Prop where
  spelled : ∀ t ∈ tokens, t.Spelled
  length_le : tokens.length ≤ bound

namespace Ready

variable {bound : Nat} {t : Token} {tokens rest : List Token}

/-- A suffix of ready tokens is ready. -/
theorem of_suffix (h : Ready bound tokens) (hrest : rest <:+ tokens) : Ready bound rest :=
  ⟨fun t ht => h.spelled t (hrest.subset ht), hrest.length_le.trans h.length_le⟩

theorem tail (h : Ready bound (t :: tokens)) : Ready bound tokens :=
  h.of_suffix (List.suffix_cons _ _)

theorem tail_lt (h : Ready (bound + 1) (t :: tokens)) : Ready bound tokens :=
  ⟨h.tail.spelled, Nat.le_of_succ_le_succ h.length_le⟩

theorem mono {bound' : Nat} (h : Ready bound tokens) (hbound : bound ≤ bound') :
    Ready bound' tokens :=
  ⟨h.spelled, h.length_le.trans hbound⟩

end Ready

/-- What was found satisfies `P`, and the tokens behind it are still ready. -/
def Outcome.Gives {α : Type} (bound : Nat) (P : α → Prop) : Outcome α → Prop
  | .found a next => Ready bound next.rest ∧ P a
  | .failed _ _ => True

namespace Parser

variable {α β : Type} {bound : Nat}

/-- Whatever a parser finds among ready tokens satisfies `P`. -/
def Finds (bound : Nat) (p : Parser α) (P : α → Prop) : Prop :=
  ∀ c, Ready bound c.rest → (p c).Gives bound P

namespace Finds

variable {P : α → Prop} {Q : β → Prop}

theorem mono {p : Parser α} {P' : α → Prop} (h : Finds bound p P) (hP : ∀ a, P a → P' a) :
    Finds bound p P' := by
  intro c hc
  have hfound := h c hc
  cases hp : p c with
  | failed m next => trivial
  | found a next =>
    rw [hp] at hfound
    exact ⟨hfound.1, hP a hfound.2⟩

theorem and {p : Parser α} {P' : α → Prop} (h : Finds bound p P) (h' : Finds bound p P') :
    Finds bound p fun a => P a ∧ P' a := by
  intro c hc
  have hfound := h c hc
  have hfound' := h' c hc
  cases hp : p c with
  | failed m next => trivial
  | found a next =>
    rw [hp] at hfound hfound'
    exact ⟨hfound.1, hfound.2, hfound'.2⟩

/-- What goes with the tokens taken for it. -/
theorem of_takes {p : Parser α} {P : List Token → α → Prop} (h : p.Takes P) :
    Finds bound p fun a => ∃ taken, P taken a := by
  intro c hc
  have hfound := h c
  cases hp : p c with
  | failed m next => trivial
  | found a next =>
    rw [hp] at hfound
    obtain ⟨taken, hrest, hP⟩ := hfound
    exact ⟨hc.of_suffix ⟨taken, hrest.symm⟩, taken, hP⟩

theorem pure {a : α} (h : P a) : Finds bound (Pure.pure a) P := fun _ hc => ⟨hc, h⟩

theorem fail (phrase : Phrase) (wanted : KindSet) : Finds bound (Parser.fail phrase wanted) P :=
  fun _ _ => trivial

/-- What is found by one parser may be used to say what the next one finds. -/
theorem bind {p : Parser α} {f : α → Parser β} (hp : Finds bound p P)
    (hf : ∀ a, P a → Finds bound (f a) Q) : Finds bound (p >>= f) Q := by
  intro c hc
  have hfound := hp c hc
  cases h : p c with
  | failed m next =>
    rw [bind_of_failed h]
    trivial
  | found a next =>
    rw [h] at hfound
    rw [bind_of_found h]
    exact hf a hfound.2 next hfound.1

/-- A step whose result does not matter. -/
theorem seq {p : Parser α} {f : α → Parser β} {R : List Token → α → Prop} (hp : p.Takes R)
    (hf : ∀ a, Finds bound (f a) Q) : Finds bound (p >>= f) Q := (of_takes hp).bind fun a _ => hf a

/-- What is found may be shown for every place looked at. -/
theorem here_bind {f : Cursor → Parser β} (hf : ∀ c, Finds bound (f c) Q) :
    Finds bound (Parser.here >>= f) Q := fun c hc => hf c c hc

/-- A choice between two parsers, with the same steps behind both. -/
theorem ite_bind {b : Bool} {p q : Parser α} {f : α → Parser β} (hp : Finds bound p P)
    (hq : Finds bound q P) (hf : ∀ a, P a → Finds bound (f a) Q) :
    Finds bound (if b then p >>= f else q >>= f) Q := by
  cases b with
  | true => exact hp.bind hf
  | false => exact hq.bind hf

/-- What an attempt finds, if anything, is what the parser finds. -/
theorem attempt {p : Parser α} (hp : Finds bound p P) :
    Finds bound (Parser.attempt p) fun o => ∀ a, o = some a → P a := by
  intro c hc
  have hfound := hp c hc
  unfold Parser.attempt
  cases h : p c with
  | failed m next => exact ⟨hc, nofun⟩
  | found a next =>
    rw [h] at hfound
    refine ⟨hfound.1, fun b hb => ?_⟩
    cases hb
    exact hfound.2

/-! ### Trees -/

/-- Taking a token finds a leaf of one of the wanted kinds, spelled as its kind says. -/
theorem take (phrase : Phrase) (wanted : KindSet) :
    Finds bound (Parser.take phrase wanted) fun t =>
      ∃ x, t = .leaf x ∧ x.Spelled ∧ wanted.contains x.kind = true := by
  intro c hc
  unfold Parser.take
  split
  · rename_i x ts hrest
    rw [hrest] at hc
    split
    · rename_i hwanted
      exact ⟨hc.tail, x, rfl, hc.spelled x List.mem_cons_self, hwanted⟩
    · trivial
  · trivial

theorem expect (phrase : Phrase) (k : Kind) :
    Finds bound (Parser.expect phrase k) fun t => ∃ x, t = .leaf x ∧ x.kind = k :=
  (take phrase (.ofList [k])).mono fun _ ⟨x, ht, _, hwanted⟩ => ⟨x, ht, by simpa using hwanted⟩

/-- What holds of a phrase with the parts that are found for it. -/
theorem node {phrase : Phrase} {p : Parser (List Tree)} {P : Tree → Prop}
    (hp : Finds bound p fun ts => P (.node phrase ts)) : Finds bound (Parser.node phrase p) P :=
  hp.bind fun _ hts => pure hts

/-- A row of one tree. -/
theorem single {p : Parser Tree} {P : Tree → Prop} (hp : Finds bound p P) :
    Finds bound (do return [← p] : Parser (List Tree)) fun ts => ∃ t, ts = [t] ∧ P t :=
  hp.bind fun t ht => pure ⟨t, rfl, ht⟩

/-- A token that may be left out. -/
theorem accept (phrase : Phrase) (k : Kind) :
    Finds bound (Parser.accept phrase k) fun ts => ∀ t ∈ ts, ∃ x, t = .leaf x ∧ x.kind = k := by
  refine here_bind fun c => ?_
  split
  · exact (single (expect phrase k)).mono fun _ ⟨t, hts, ht⟩ => by simpa [hts] using ht
  · exact pure nofun

/-- What is repeated is found in every round. -/
theorem repeatWhile {more : Cursor → Bool} {item : Parser (List Tree)} {P : List Tree → Prop}
    (hitem : Finds bound item P) :
    Finds bound (Parser.repeatWhile more item) fun ts =>
      ∃ rounds : List (List Tree), ts = rounds.flatten ∧ ∀ ts ∈ rounds, P ts := by
  have hwithin (n : Nat) : Finds bound (repeatWithin more item n) fun ts =>
      ∃ rounds : List (List Tree), ts = rounds.flatten ∧ ∀ ts ∈ rounds, P ts := by
    induction n with
    | zero => exact pure ⟨[], rfl, nofun⟩
    | succ n ih =>
      refine here_bind fun c => ?_
      split
      · refine hitem.bind fun ts hts => ih.bind fun _ ⟨rounds, hrest, hrounds⟩ => pure ?_
        exact ⟨ts :: rounds, by rw [hrest]; rfl, List.forall_mem_cons.mpr ⟨hts, hrounds⟩⟩
      · exact pure ⟨[], rfl, nofun⟩
  exact fun c hc => hwithin c.rest.length c hc

/-- Rounds of one tree each. -/
theorem repeatSingle {more : Cursor → Bool} {p : Parser Tree} {P : Tree → Prop}
    (hp : Finds bound p P) :
    Finds bound (Parser.repeatWhile more (do return [← p])) fun ts => ∀ t ∈ ts, P t := by
  refine (repeatWhile (single hp)).mono fun ts ⟨rounds, hts, hrounds⟩ t ht => ?_
  rw [hts] at ht
  obtain ⟨round, hround, ht⟩ := List.mem_flatten.mp ht
  obtain ⟨u, rfl, hu⟩ := hrounds round hround
  rw [List.mem_singleton.mp ht]
  exact hu

/-- Rounds of two trees each. -/
theorem repeatPair {more : Cursor → Bool} {p q : Parser Tree} {P Q : Tree → Prop}
    (hp : Finds bound p P) (hq : Finds bound q Q) :
    Finds bound (Parser.repeatWhile more (do return [← p, ← q])) fun ts =>
      ∃ pairs : List (Tree × Tree), ts = pairs.flatMap (fun x => [x.1, x.2]) ∧
        ∀ x ∈ pairs, P x.1 ∧ Q x.2 := by
  have hitem : Finds bound (do return [← p, ← q] : Parser (List Tree)) fun ts =>
      ∃ t u, ts = [t, u] ∧ P t ∧ Q u :=
    hp.bind fun t ht => hq.bind fun u hu => pure ⟨t, u, rfl, ht, hu⟩
  refine (repeatWhile hitem).mono ?_
  rintro ts ⟨rounds, rfl, hrounds⟩
  induction rounds with
  | nil => exact ⟨[], rfl, nofun⟩
  | cons round rounds ih =>
    obtain ⟨⟨t, u, rfl, hround⟩, hothers⟩ := List.forall_mem_cons.mp hrounds
    obtain ⟨pairs, hpairs, hall⟩ := ih hothers
    refine ⟨(t, u) :: pairs, ?_, List.forall_mem_cons.mpr ⟨hround, hall⟩⟩
    rw [List.flatten_cons, hpairs]
    rfl

end Finds

end Parser

/-! ## Recovering parsers -/

namespace Recovering

variable {α β : Type} {bound : Nat}

/-- Whatever a recovering parser finds without noting a mismatch satisfies `P`. -/
def Finds (bound : Nat) (p : Recovering α) (P : α → Prop) : Prop :=
  ∀ c, Ready bound c.rest → (p c).noted = [] → (p c).outcome.Gives bound P

namespace Finds

variable {P : α → Prop} {Q : β → Prop}

theorem mono {p : Recovering α} {P' : α → Prop} (h : Finds bound p P) (hP : ∀ a, P a → P' a) :
    Finds bound p P' := by
  intro c hc hnoted
  have hfound := h c hc hnoted
  cases hp : (p c).outcome with
  | failed m next => trivial
  | found a next =>
    rw [hp] at hfound
    exact ⟨hfound.1, hP a hfound.2⟩

theorem and {p : Recovering α} {P' : α → Prop} (h : Finds bound p P) (h' : Finds bound p P') :
    Finds bound p fun a => P a ∧ P' a := by
  intro c hc hnoted
  have hfound := h c hc hnoted
  have hfound' := h' c hc hnoted
  cases hp : (p c).outcome with
  | failed m next => trivial
  | found a next =>
    rw [hp] at hfound hfound'
    exact ⟨hfound.1, hfound.2, hfound'.2⟩

/-- What goes with what is noted and the tokens taken for it. -/
theorem of_takes {p : Recovering α} {P : List Mismatch → List Token → α → Prop} (h : p.Takes P) :
    Finds bound p fun a => ∃ noted taken, P noted taken a := by
  intro c hc _
  have hfound := h c
  cases hp : (p c).outcome with
  | failed m next => trivial
  | found a next =>
    rw [hp] at hfound
    obtain ⟨taken, hrest, hP⟩ := hfound
    exact ⟨hc.of_suffix ⟨taken, hrest.symm⟩, _, taken, hP⟩

theorem pure {a : α} (h : P a) : Finds bound (Pure.pure a) P := fun _ hc _ => ⟨hc, h⟩

theorem lift {p : Parser α} (h : p.Finds bound P) : Finds bound (ofParser p) P :=
  fun c hc _ => h c hc

theorem fail (phrase : Phrase) (wanted : KindSet) :
    Finds bound (ofParser (Parser.fail phrase wanted)) P := fun _ _ _ => trivial

theorem bind {p : Recovering α} {f : α → Recovering β} (hp : Finds bound p P)
    (hf : ∀ a, P a → Finds bound (f a) Q) : Finds bound (p >>= f) Q := by
  intro c hc
  have hfound := hp c hc
  rcases h : p c with ⟨noted, outcome⟩
  rw [h] at hfound
  cases outcome with
  | failed m next =>
    rw [bind_of_failed h]
    exact fun _ => trivial
  | found a next =>
    rw [bind_of_found h]
    intro hnoted
    obtain ⟨hfirst, hsecond⟩ := List.append_eq_nil_iff.mp hnoted
    have ha := hfound hfirst
    exact hf a ha.2 next ha.1 hsecond

/-- A parser may stand before a recovering one. -/
theorem lift_bind {p : Parser α} {f : α → Recovering β} (hp : p.Finds bound P)
    (hf : ∀ a, P a → Finds bound (f a) Q) : Finds bound ((p : Recovering α) >>= f) Q :=
  (lift hp).bind hf

theorem here_bind {f : Cursor → Recovering β} (hf : ∀ c, Finds bound (f c) Q) :
    Finds bound (((Parser.here : Parser Cursor) : Recovering Cursor) >>= f) Q := by
  intro c hc hnoted
  exact hf c c hc hnoted

/-- A token at the start: where there is one, fewer are left behind it. -/
theorem expect_bind {phrase : Phrase} {k : Kind} {f : Tree → Recovering β}
    (hf : ∀ n, bound = n + 1 → ∀ x, Finds n (f (.leaf x)) Q) :
    Finds bound (((Parser.expect phrase k : Parser Tree) : Recovering Tree) >>= f) Q := by
  intro c hc
  have htaken := Parser.Takes.take phrase (.ofList [k]) c
  cases h : Parser.expect phrase k c with
  | failed m next =>
    rw [lift_bind_of_failed h]
    exact fun _ => trivial
  | found t next =>
    rw [show Parser.take phrase (.ofList [k]) c = _ from h] at htaken
    obtain ⟨taken, hrest, x, rfl, rfl, -⟩ := htaken
    rw [hrest] at hc
    rw [lift_bind_of_found h]
    cases bound with
    | zero => exact absurd hc.length_le (by simp)
    | succ n =>
      intro hnoted
      have hfound := hf n rfl x next hc.tail_lt hnoted
      cases hx : (f (.leaf x) next).outcome with
      | failed m last => trivial
      | found b last =>
        rw [hx] at hfound
        exact ⟨hfound.1.mono (Nat.le_succ n), hfound.2⟩

/-- A phrase is as its parts are shown to be. -/
theorem node {phrase : Phrase} {p : Recovering (List Tree)} {P : Tree → Prop}
    (hp : Finds bound p fun ts => P (.node phrase ts)) :
    Finds bound (Parser.recoveringNode phrase p) P := hp.bind fun _ hts => pure hts

end Finds

end Recovering

end LessCss
