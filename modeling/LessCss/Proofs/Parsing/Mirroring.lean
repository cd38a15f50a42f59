import Mathlib.Data.List.Chain
import LessCss.Proofs.Parsing.Avoiding

/-!
# Parsing the same tokens at other places

Two texts may have the same tokens at different places, and one of them may go on behind the end of
the other. A `Transfer` says where the tokens of the first text are in the second and what follows
there.  A parser that stands at corresponding places of both texts sees the same, as long as the
blanks between neighbours are alike and as long as it does not look behind the end of the first
text.  It does not look there while a brace or semicolon is still to come (`Transfer.Fits`), as
nothing but statements goes past these.

`Transfer.Mirrors` says of two parsers that they do the same at corresponding places.  There is one
rule for each way of putting parsers together.  What stands before the first token of a phrase plays
no role in most phrases, and rules for these are about places where only the tokens behind
correspond (`Fits false`).
-/

namespace LessCss

namespace Tree

mutual
/-- Puts another token in the place of each. -/
def map (f : Token → Token) : Tree → Tree
  | leaf t => leaf (f t)
  | node p ts => node p (mapAll f ts)
/-- The same for every tree of a row. -/
def mapAll (f : Token → Token) : List Tree → List Tree
  | [] => []
  | t :: ts => map f t :: mapAll f ts
end

variable (f : Token → Token)

theorem mapAll_eq (ts : List Tree) : mapAll f ts = ts.map (map f) := by
  induction ts with
  | nil => rfl
  | cons t ts ih => rw [mapAll, ih, List.map_cons]

@[simp] theorem map_leaf (t : Token) : (leaf t).map f = leaf (f t) := rfl

@[simp] theorem map_node (p : Phrase) (ts : List Tree) :
    (node p ts).map f = node p (ts.map (map f)) := by
  rw [map, mapAll_eq]

/-- Putting other tokens in a tree leaves its phrase. -/
theorem phrase?_map (t : Tree) : (t.map f).phrase? = t.phrase? := by
  cases t with
  | leaf x => rfl
  | node p ts => rw [map_node]; rfl

theorem children_map (t : Tree) : (t.map f).children = t.children.map (map f) := by
  cases t with
  | leaf x => rfl
  | node p ts => rw [map_node]; rfl

mutual
/-- Tokens that stay as they are. -/
theorem map_id (t : Tree) : t.map (fun x => x) = t := by
  cases t with
  | leaf x => rfl
  | node p ts => rw [map, mapAll_id ts]
theorem mapAll_id (ts : List Tree) : mapAll (fun x => x) ts = ts := by
  cases ts with
  | nil => rfl
  | cons t ts => rw [mapAll, map_id t, mapAll_id ts]
end

mutual
/-- The leaves of a tree with other tokens are the other tokens, in order. -/
theorem leaves_map (t : Tree) : (t.map f).leaves = t.leaves.map f := by
  cases t with
  | leaf x => rfl
  | node p ts => exact leavesOf_mapAll ts
theorem leavesOf_mapAll (ts : List Tree) : leavesOf (mapAll f ts) = (leavesOf ts).map f := by
  cases ts with
  | nil => rfl
  | cons t ts =>
    rw [mapAll, leavesOf_cons, leavesOf_cons, leaves_map t, leavesOf_mapAll ts, List.map_append]
end

end Tree

/-- Where the tokens of a text stand in another text, and the tokens that follow there. -/
structure Transfer where
  start : Token → Nat
  stop : Token → Nat
  tail : List Token

namespace Cursor

variable {c : Cursor}

/-- Where nothing is to come no token is next. -/
theorem isAtAny_of_rest_nil (h : c.rest = []) (s : KindSet) : c.isAtAny s = false := by
  simp [isAtAny, kind?, next?, h]

theorem startsHere_of_rest_nil (h : c.rest = []) (p : Phrase) : Parser.startsHere c p = false :=
  isAtAny_of_rest_nil h _

end Cursor

/-- A repetition that stops at the end finds nothing there. -/
theorem Parser.repeatWithin_of_rest_nil {more : Cursor → Bool}
    (hend : ∀ c, c.rest = [] → more c = false) (item : Parser (List Tree)) (n : Nat) {c : Cursor}
    (hc : c.rest = []) :
    repeatWithin more item n c = .found [] c := by
  cases n with
  | zero => rfl
  | succ n =>
    change (if more c then _ else pure [] : Parser (List Tree)) c = _
    rw [hend c hc]
    rfl

namespace Transfer

variable (x : Transfer)

/-! ## Corresponding places -/

/-- A token at its place in the other text. -/
def token (t : Token) : Token := ⟨t.kind, x.start t, x.stop t, t.text⟩

@[simp] theorem token_kind (t : Token) : (x.token t).kind = t.kind := rfl

@[simp] theorem token_text (t : Token) : (x.token t).text = t.text := rfl

/-- A tree of the other text. -/
def tree : Tree → Tree := Tree.map x.token

/-- A row of trees of the other text. -/
def row : List Tree → List Tree := List.map x.tree

/-- A mismatch in the other text. -/
def mismatch (m : Mismatch) : Mismatch := { m with found := m.found.map x.token }

/-- A mismatch in the other text has the same complaint. -/
theorem complaint_mismatch (m : Mismatch) : (x.mismatch m).complaint = m.complaint := by
  obtain ⟨phrase, wanted, found⟩ := m
  cases found <;> rfl

@[simp] theorem tree_leaf (t : Token) : x.tree (.leaf t) = .leaf (x.token t) := rfl

@[simp] theorem tree_node (p : Phrase) (ts : List Tree) :
    x.tree (.node p ts) = .node p (x.row ts) :=
  Tree.map_node _ p ts

@[simp] theorem row_nil : x.row [] = [] := rfl

@[simp] theorem row_cons (t : Tree) (ts : List Tree) : x.row (t :: ts) = x.tree t :: x.row ts := rfl

@[simp] theorem row_append (ts us : List Tree) : x.row (ts ++ us) = x.row ts ++ x.row us :=
  List.map_append

/-- Two neighbours touch in both texts or in neither, and have something between them in both or in
neither. -/
def Spaced (t u : Token) : Prop :=
  (x.start u = x.stop t ↔ u.start = t.stop) ∧ (x.stop t < x.start u ↔ t.stop < u.start)

/-- Two places correspond: the tokens behind them do, and if `near` those before them as well. -/
structure At (near : Bool) (c d : Cursor) : Prop where
  rest : d.rest = c.rest.map x.token ++ x.tail
  spaced : c.rest.IsChain x.Spaced
  previous : near = true →
    d.previous = c.previous.map x.token ∧ ∀ p ∈ c.previous, ∀ t ∈ c.rest.head?, x.Spaced p t

/-- Nothing follows in the other text, or a brace or semicolon is still to come. -/
def Settled (tokens : List Token) : Prop := x.tail = [] ∨ ∃ t ∈ tokens, t.kind ∈ stops

/-- Corresponding places at which a parser sees the same, with no more than `bound` tokens behind
the first. -/
structure Fits (near : Bool) (bound : Nat) (c d : Cursor) : Prop extends At x near c d where
  bounded : c.rest.length ≤ bound
  settled : x.Settled c.rest

variable {x}

/-- If a brace or semicolon is to come, it is so earlier as well. -/
theorem Settled.of_suffix {ts us : List Token} (h : x.Settled ts) (hts : ts <:+ us) :
    x.Settled us :=
  h.imp_right fun ⟨t, ht, hkind⟩ => ⟨t, hts.subset ht, hkind⟩

/-- Where no tokens are left, none are left in the other text. -/
theorem Settled.tail_eq (h : x.Settled []) : x.tail = [] := h.resolve_right (by simp)

/-- A token that ends no statement leaves a brace or semicolon to come. -/
theorem Settled.tail {t : Token} {ts : List Token} (h : x.Settled (t :: ts)) (ht : t.kind ∉ stops) :
    x.Settled ts := by
  refine h.imp_right fun ⟨u, hu, hkind⟩ => ⟨u, ?_, hkind⟩
  rcases List.mem_cons.mp hu with rfl | hu
  · exact absurd hkind ht
  · exact hu

namespace At

variable {near : Bool} {c d : Cursor} {t : Token} {ts : List Token}

theorem loose (h : x.At near c d) : x.At false c d := ⟨h.rest, h.spaced, nofun⟩

/-- Behind a token the other text goes on with the same token at its own place. -/
theorem rest_cons (h : x.At near c d) (hrest : c.rest = t :: ts) :
    d.rest = x.token t :: (ts.map x.token ++ x.tail) := by
  rw [h.rest, hrest, List.map_cons, List.cons_append]

/-- The places behind the next token. -/
theorem step (h : x.At near c d) (hrest : c.rest = t :: ts) :
    x.At true ⟨some t, ts⟩ ⟨some (x.token t), ts.map x.token ++ x.tail⟩ := by
  have hspaced := h.spaced
  rw [hrest, List.isChain_cons] at hspaced
  refine ⟨rfl, hspaced.2, fun _ => ⟨rfl, fun p hp => ?_⟩⟩
  cases hp
  exact hspaced.1

theorem settled (h : x.At near c d) (hbound : c.rest.length ≤ bound) (hsettled : x.Settled c.rest) :
    x.Fits near bound c d := ⟨h, hbound, hsettled⟩

end At

namespace Fits

variable {near : Bool} {bound : Nat} {c d : Cursor} {t : Token} {ts : List Token}

/-- Places that fit with some tokens behind them fit with any larger bound. -/
theorem mono {bound' : Nat} (h : x.Fits near bound c d) (hbound : bound ≤ bound') :
    x.Fits near bound' c d :=
  ⟨h.toAt, Nat.le_trans h.bounded hbound, h.settled⟩

/-- Exactly as many tokens as there are. -/
theorem exact (h : x.Fits near bound c d) : x.Fits near c.rest.length c d :=
  ⟨h.toAt, Nat.le_refl _, h.settled⟩

theorem rest_eq_nil (h : x.Fits near 0 c d) : c.rest = [] :=
  List.length_eq_zero_iff.mp (Nat.le_zero.mp h.bounded)

/-- The second text is longer by what follows there. -/
theorem length_rest (h : x.Fits near bound c d) :
    d.rest.length = c.rest.length + x.tail.length := by
  rw [h.rest, List.length_append, List.length_map]

/-- Taking a token that ends no statement leads from fitting places to fitting places. -/
theorem step (h : x.Fits near bound c d) (hrest : c.rest = t :: ts) (ht : t.kind ∉ stops) :
    x.Fits true (bound - 1) ⟨some t, ts⟩ ⟨some (x.token t), ts.map x.token ++ x.tail⟩ := by
  have hbounded := h.bounded
  have hsettled := h.settled
  rw [hrest] at hbounded hsettled
  exact ⟨h.toAt.step hrest, Nat.le_sub_one_of_lt hbounded, hsettled.tail ht⟩

/-- If nothing is to come in the first text, nothing follows in the second. -/
theorem tail_eq (h : x.Fits near bound c d) (hrest : c.rest = []) : x.tail = [] :=
  (hrest ▸ h.settled : x.Settled []).tail_eq

theorem rest_nil (h : x.Fits near bound c d) (hrest : c.rest = []) : d.rest = [] := by
  rw [h.rest, hrest, h.tail_eq hrest]
  rfl

/-! ### What a parser sees -/

theorem next?_eq (h : x.Fits near bound c d) : d.next? = c.next?.map x.token := by
  unfold Cursor.next?
  cases hrest : c.rest with
  | nil => rw [h.rest_nil hrest]; rfl
  | cons t ts => rw [h.rest_cons hrest]; rfl

/-- At fitting places tokens of the same kind come next. -/
theorem kind?_eq (h : x.Fits near bound c d) : d.kind? = c.kind? := by
  rw [Cursor.kind?, Cursor.kind?, h.next?_eq, Option.map_map]
  rfl

theorem isAt_eq (h : x.Fits near bound c d) (k : Kind) : d.isAt k = c.isAt k := by
  rw [Cursor.isAt, Cursor.isAt, h.kind?_eq]

theorem isAtAny_eq (h : x.Fits near bound c d) (s : KindSet) : d.isAtAny s = c.isAtAny s := by
  rw [Cursor.isAtAny, Cursor.isAtAny, h.kind?_eq]

/-- At fitting places the same phrases may start. -/
theorem startsHere_eq (h : x.Fits near bound c d) (p : Phrase) :
    Parser.startsHere d p = Parser.startsHere c p := h.isAtAny_eq _

theorem any_text_eq (h : x.Fits near bound c d) (word : String) :
    d.next?.any (·.text == word) = c.next?.any (·.text == word) := by
  rw [h.next?_eq, Option.any_map]
  rfl

/-- Behind a token that ends nothing, another one follows in both texts or in neither. -/
theorem second_eq (h : x.Fits near bound c d) (hrest : c.rest = t :: ts) (ht : t.kind ∉ stops) :
    d.rest[1]? = c.rest[1]?.map x.token := by
  have hnext := (h.step hrest ht).next?_eq
  rw [h.rest_cons hrest, hrest, List.getElem?_cons_succ,
    List.getElem?_cons_succ, ← List.head?_eq_getElem?, ← List.head?_eq_getElem?]
  exact hnext

/-- The second token is of the same kind as well, if the first one ends no statement. -/
theorem isAt_second_eq (h : x.Fits near bound c d) {k : Kind} (hk : k ∉ stops) (second : Kind) :
    (d.isAt k && d.secondKind? == some second) = (c.isAt k && c.secondKind? == some second) := by
  rw [h.isAt_eq]
  cases hat : c.isAt k with
  | false => rfl
  | true =>
    obtain ⟨t, ts, hrest, ht⟩ := Cursor.exists_of_isAt hat
    rw [Cursor.secondKind?, Cursor.secondKind?, h.second_eq hrest (ht ▸ hk), Option.map_map]
    rfl

theorem isAtAllWord_eq (h : x.Fits near bound c d) :
    Parser.isAtAllWord d = Parser.isAtAllWord c := by
  have hsecond := h.isAt_second_eq (k := .ident) (by decide) .rightParen
  unfold Parser.isAtAllWord
  rw [h.any_text_eq, Bool.and_right_comm, hsecond, Bool.and_right_comm]

/-- At near places the next token touches the one before in both texts or in neither. -/
theorem isTight_eq (h : x.Fits true bound c d) : d.isTight = c.isTight := by
  obtain ⟨hprevious, hspaced⟩ := h.previous rfl
  unfold Cursor.isTight
  rw [hprevious, h.next?_eq]
  cases hp : c.previous with
  | none => rfl
  | some p =>
    cases hn : c.next? with
    | none => rfl
    | some n => exact Bool.eq_iff_iff.mpr (by simpa [token] using (hspaced p hp n hn).1)

theorem hasGap_eq (h : x.Fits true bound c d) : d.hasGap = c.hasGap := by
  obtain ⟨hprevious, hspaced⟩ := h.previous rfl
  unfold Cursor.hasGap
  rw [hprevious, h.next?_eq]
  cases hp : c.previous with
  | none => rfl
  | some p =>
    cases hn : c.next? with
    | none => rfl
    | some n => exact Bool.eq_iff_iff.mpr (by simpa [token] using (hspaced p hp n hn).2)

/-- A minus is a sign in both texts or in neither. -/
theorem isSign_eq (h : x.Fits true bound c d) :
    (d.isAt .minus && !Parser.isSign d) = (c.isAt .minus && !Parser.isSign c) := by
  rw [h.isAt_eq]
  cases hat : c.isAt .minus with
  | false => rfl
  | true =>
    obtain ⟨t, ts, hrest, ht⟩ := Cursor.exists_of_isAt hat
    have hstep := h.step hrest (by rw [ht]; decide)
    unfold Parser.isSign
    rw [h.rest_cons hrest, hrest]
    cases ts with
    | nil => rw [hstep.settled.tail_eq]; rfl
    | cons u us =>
      have hspaced := ((hstep.previous rfl).2 t rfl u rfl).1
      have htouch : ((x.token u).start == (x.token t).stop) = (u.start == t.stop) :=
        Bool.eq_iff_iff.mpr (by simpa [token] using hspaced)
      simp only [List.map_cons, List.cons_append, h.hasGap_eq, htouch, token_kind]

end Fits

/-! ## Parsers -/

/-- Outcomes of parsing two texts correspond: `h` carries what was found over. -/
inductive Alike {α β : Type} (x : Transfer) (h : α → β) (post : Cursor → Cursor → Prop) :
    Outcome α → Outcome β → Prop
  | found {a : α} {b : β} {next next' : Cursor} (ha : b = h a) (hnext : post next next') :
    Alike x h post (.found a next) (.found b next')
  | failed {m m' : Mismatch} {next next' : Cursor} (hm : m' = x.mismatch m)
    (hnext : x.At false next next') :
    Alike x h post (.failed m next) (.failed m' next')

/-- Two parsers, at places that are as `pre` says, do the same and end at places that are as `post`
says. -/
def Mirrors {α β : Type} (x : Transfer) (pre post : Cursor → Cursor → Prop) (h : α → β)
    (p : Parser α) (q : Parser β) : Prop := ∀ c d, pre c d → x.Alike h post (p c) (q d)

/-- Two parsers do the same, and take a token if they find something. -/
abbrev Consumes {α β : Type} (x : Transfer) (near : Bool) (bound : Nat) (h : α → β) (p : Parser α)
    (q : Parser β) : Prop := x.Mirrors (x.Fits near bound) (x.Fits true (bound - 1)) h p q

/-- Two parsers do the same, and perhaps take nothing. -/
abbrev Passes {α β : Type} (x : Transfer) (bound : Nat) (h : α → β) (p : Parser α)
    (q : Parser β) : Prop :=
  x.Mirrors (x.Fits true bound) (x.Fits true bound) h p q

theorem Alike.mono {α β : Type} {h : α → β} {post post' : Cursor → Cursor → Prop} {o : Outcome α}
    {o' : Outcome β} (ho : x.Alike h post o o') (hpost : ∀ c d, post c d → post' c d) :
    x.Alike h post' o o' := by
  cases ho with
  | found ha hnext => exact .found ha (hpost _ _ hnext)
  | failed hm hnext => exact .failed hm hnext

/-- What goes on behind outcomes that are alike is alike if it is where something was found. -/
theorem Alike.bind {α β α' β' : Type} {mid post : Cursor → Cursor → Prop} {h : α → α'} {k : β → β'}
    {p : Parser α} {q : Parser α'} {f : α → Parser β} {g : α' → Parser β'} {c d : Cursor}
    (hpq : x.Alike h mid (p c) (q d))
    (hfg : ∀ a next next', p c = .found a next → mid next next' →
      x.Alike k post (f a next) (g (h a) next')) :
    x.Alike k post ((p >>= f) c) ((q >>= g) d) := by
  generalize hp : p c = o at hpq
  generalize hq : q d = o' at hpq
  cases hpq with
  | found ha hnext =>
    subst ha
    rw [Parser.bind_of_found hp, Parser.bind_of_found hq]
    exact hfg _ _ _ hp hnext
  | failed hm hnext =>
    rw [Parser.bind_of_failed hp, Parser.bind_of_failed hq]
    exact .failed hm hnext

/-- What goes on behind a token does the same if the rest does. -/
theorem Alike.behind {t : Token} {post : Cursor → Cursor → Prop} {o o' : Outcome (List Tree)} :
    x.Alike x.row post o o' → x.Alike x.row post
      (match o with
        | .found rest next => .found (.leaf t :: rest) next
        | .failed m next => .failed m next)
      (match o' with
        | .found rest next => .found (.leaf (x.token t) :: rest) next
        | .failed m next => .failed m next) := by
  intro ho
  cases ho with
  | found ha hnext => exact .found (by rw [ha]; rfl) hnext
  | failed hm hnext => exact .failed hm hnext

namespace Mirrors

variable {α β α' β' : Type} {pre mid post : Cursor → Cursor → Prop} {h : α → α'} {k : β → β'}
  {p : Parser α} {q : Parser α'} {near : Bool} {bound : Nat}

/-- What two parsers do alike they do alike from fewer places and up to more. -/
theorem mono {pre' post' : Cursor → Cursor → Prop} (hpq : x.Mirrors pre post h p q)
    (hpre : ∀ c d, pre' c d → pre c d) (hpost : ∀ c d, post c d → post' c d) :
    x.Mirrors pre' post' h p q :=
  fun c d hcd => (hpq c d (hpre c d hcd)).mono hpost

/-- What was taken does not matter any more. -/
theorem passes (hpq : x.Consumes true bound h p q) : x.Passes bound h p q :=
  hpq.mono (fun _ _ hcd => hcd) fun _ _ hcd => hcd.mono (Nat.sub_le _ _)

/-- What is still to come does not matter any more. -/
theorem ends {bound' : Nat} (hpq : x.Mirrors pre (x.Fits true bound') h p q) :
    x.Mirrors pre (x.At true) h p q :=
  hpq.mono (fun _ _ hcd => hcd) fun _ _ hcd => hcd.toAt

theorem pure {a : α} {b : α'} (hb : b = h a) : x.Mirrors post post h (Pure.pure a) (Pure.pure b) :=
  fun _ _ hcd => .found hb hcd

/-- One parser behind another does alike what both do alike. -/
theorem bind {f : α → Parser β} {g : α' → Parser β'} (hpq : x.Mirrors pre mid h p q)
    (hfg : ∀ a, x.Mirrors mid post k (f a) (g (h a))) : x.Mirrors pre post k (p >>= f) (q >>= g) :=
  fun c d hcd => (hpq c d hcd).bind fun a next next' _ hnext => hfg a next next' hnext

/-- To look where one is: what depends on it must not differ. -/
theorem here_bind {f : Cursor → Parser β} {g : Cursor → Parser β'}
    (hfg : ∀ c d, pre c d → x.Mirrors pre post k (f c) (g d)) :
    x.Mirrors pre post k (Parser.here >>= f) (Parser.here >>= g) :=
  fun c d hcd => hfg c d hcd c d hcd

/-- A choice between two parsers, with the same steps behind both. -/
theorem ite_bind {b : Bool} {p' : Parser α} {q' : Parser α'} {f : α → Parser β} {g : α' → Parser β'}
    (hpq : x.Mirrors pre mid h p q) (hpq' : x.Mirrors pre mid h p' q')
    (hfg : ∀ a, x.Mirrors mid post k (f a) (g (h a))) :
    x.Mirrors pre post k (if b then p >>= f else p' >>= f) (if b then q >>= g else q' >>= g) := by
  cases b with
  | true => exact hpq.bind hfg
  | false => exact hpq'.bind hfg

/-- Two parsers that fail at fitting places fail alike. -/
theorem fail (phrase : Phrase) (wanted : KindSet) :
    x.Mirrors (x.Fits near bound) post h (Parser.fail phrase wanted) (Parser.fail phrase wanted) :=
  fun _ _ hcd => .failed (by rw [hcd.next?_eq]; rfl) hcd.loose

/-- An attempt succeeds in both texts or in neither. -/
theorem attempt (hpq : x.Consumes true bound h p q) :
    x.Passes bound (Option.map h) (Parser.attempt p) (Parser.attempt q) := by
  intro c d hcd
  have hc := hpq c d hcd
  unfold Parser.attempt
  generalize p c = o at hc ⊢
  generalize q d = o' at hc ⊢
  cases hc with
  | found ha hnext => exact .found (congrArg some ha) (hnext.mono (Nat.sub_le _ _))
  | failed hm hnext => exact .found rfl hcd

/-! ### Trees -/

/-- The next token, whatever it ends. -/
theorem take_stop (phrase : Phrase) (wanted : KindSet) :
    x.Mirrors (x.Fits near bound) (x.At true) x.tree (Parser.take phrase wanted)
      (Parser.take phrase wanted) := by
  intro c d hcd
  unfold Parser.take
  cases hrest : c.rest with
  | nil =>
    rw [hcd.rest_nil hrest]
    exact .failed rfl hcd.loose
  | cons t ts =>
    rw [hcd.rest_cons hrest]
    dsimp only
    rw [token_kind]
    split
    · exact .found rfl (hcd.toAt.step hrest)
    · exact .failed rfl hcd.loose

/-- A token that ends nothing. -/
theorem take (phrase : Phrase) (wanted : KindSet)
    (hwanted : ∀ k ∈ stops, wanted.contains k = false) :
    x.Consumes near bound x.tree (Parser.take phrase wanted) (Parser.take phrase wanted) := by
  intro c d hcd
  unfold Parser.take
  cases hrest : c.rest with
  | nil =>
    rw [hcd.rest_nil hrest]
    exact .failed rfl hcd.loose
  | cons t ts =>
    rw [hcd.rest_cons hrest]
    dsimp only
    rw [token_kind]
    split
    · rename_i ht
      refine .found rfl (hcd.step hrest fun hstop => ?_)
      rw [hwanted _ hstop] at ht
      exact Bool.false_ne_true ht
    · exact .failed rfl hcd.loose

/-- A brace or semicolon is taken in both texts. -/
theorem expect_stop (phrase : Phrase) (j : Kind) :
    x.Mirrors (x.Fits near bound) (x.At true) x.tree (Parser.expect phrase j)
      (Parser.expect phrase j) :=
  take_stop phrase _

/-- A token of another kind is taken in both texts, and leads to near places. -/
theorem expect (phrase : Phrase) {j : Kind} (hj : j ∉ stops) :
    x.Consumes near bound x.tree (Parser.expect phrase j) (Parser.expect phrase j) := by
  refine take phrase _ fun i hi => ?_
  have hne : i ≠ j := fun hij => hj (hij ▸ hi)
  simpa using hne

section Rows

variable {p q p' q' : Parser Tree} {ps qs : Parser (List Tree)}

/-- A row of one tree. -/
theorem single (hpq : x.Mirrors pre post x.tree p q) :
    x.Mirrors pre post x.row (do return [← p]) (do return [← q]) := hpq.bind fun _ => pure rfl

/-- A row of two trees. -/
theorem pair (hpq : x.Mirrors pre mid x.tree p q) (hpq' : x.Mirrors mid post x.tree p' q') :
    x.Mirrors pre post x.row (do return [← p, ← p']) (do return [← q, ← q']) :=
  hpq.bind fun _ => hpq'.bind fun _ => pure rfl

/-- A phrase that may be left out, with the same steps behind it in both cases. -/
theorem optional_bind {b : Bool} {f : List Tree → Parser β} {g : List Tree → Parser β'}
    (hpq : x.Mirrors pre pre x.tree p q) (hfg : ∀ ts, x.Mirrors pre post k (f ts) (g (x.row ts))) :
    x.Mirrors pre post k
      (if b then (do let t ← p; let ts ← Pure.pure [t]; f ts) else (do let ts ← Pure.pure []; f ts))
      (if b then (do let t ← q; let ts ← Pure.pure [t]; g ts)
        else (do let ts ← Pure.pure []; g ts)) := by
  cases b with
  | true => exact hpq.bind fun t => hfg [t]
  | false => exact hfg []

/-- A token that may be missing is there in both texts or in neither. -/
theorem accept (phrase : Phrase) {j : Kind} (hj : j ∉ stops) :
    x.Passes bound x.row (Parser.accept phrase j) (Parser.accept phrase j) := by
  refine here_bind fun c d hcd => ?_
  rw [hcd.isAt_eq]
  split
  · exact single (expect phrase hj).passes
  · exact pure rfl

/-- The same phrase around corresponding parts gives corresponding trees. -/
theorem node {phrase : Phrase} (hpq : x.Mirrors pre post x.row ps qs) :
    x.Mirrors pre post x.tree (Parser.node phrase ps) (Parser.node phrase qs) :=
  hpq.bind fun ts => pure (x.tree_node phrase ts).symm

/-- Items that each take a token.  The two texts may leave different numbers of tokens, and the
bounds on the number of items differ accordingly. -/
theorem repeatWhile {more : Cursor → Bool} {item item' : Parser (List Tree)}
    (hmore : ∀ c d, x.Fits true bound c d → more d = more c)
    (hend : ∀ c, c.rest = [] → more c = false)
    (hitem : ∀ n ≤ bound, x.Consumes true n x.row item item') :
    x.Passes bound x.row (Parser.repeatWhile more item) (Parser.repeatWhile more item') := by
  have hwithin (n : Nat) (hn : n ≤ bound) : ∀ m, n + x.tail.length ≤ m →
      x.Passes n x.row (Parser.repeatWithin more item n) (Parser.repeatWithin more item' m) := by
    induction n with
    | zero =>
      intro m _ c d hcd
      rw [Parser.repeatWithin_of_rest_nil hend item' m (hcd.rest_nil hcd.rest_eq_nil)]
      exact .found rfl hcd
    | succ n ih =>
      intro m hm
      obtain ⟨m, rfl⟩ : ∃ m', m = m' + 1 := ⟨m - 1, by omega⟩
      refine here_bind fun c d hcd => ?_
      rw [hmore c d (hcd.mono hn)]
      split
      · refine (hitem (n + 1) hn).bind fun ts => ?_
        have hrest := ih (by omega) m (by omega)
        refine (hrest.mono (fun _ _ hcd => hcd) fun _ _ hcd => hcd.mono (Nat.le_succ n)).bind
          fun us => ?_
        exact pure (x.row_append ts us).symm
      · exact pure rfl
  intro c d hcd
  have hc := hwithin c.rest.length hcd.bounded d.rest.length
    (Nat.le_of_eq hcd.length_rest.symm) c d hcd.exact
  exact hc.mono fun _ _ hnext => hnext.mono hcd.bounded

/-- A parser that is given the number of tokens left, which differs between the texts. -/
theorem sized {p : Nat → Parser α} {q : Nat → Parser α'}
    (hpq : ∀ n m, n + x.tail.length ≤ m → x.Consumes near n h (p n) (q m)) :
    x.Consumes near bound h (fun c => p c.rest.length c) (fun c => q c.rest.length c) := by
  intro c d hcd
  have hc := hpq c.rest.length d.rest.length (Nat.le_of_eq hcd.length_rest.symm) c d hcd.exact
  exact hc.mono fun _ _ hnext => hnext.mono (Nat.sub_le_sub_right hcd.bounded 1)

/-- Parentheses that are kept as they are. -/
theorem balanced (phrase : Phrase) :
    x.Passes bound x.row (Parser.balanced phrase) (Parser.balanced phrase) := by
  have hfrom (ts : List Token) : ∀ depth c d, x.Fits true bound c d → c.rest = ts →
      x.Alike x.row (x.Fits true bound) (Parser.takeBalanced phrase depth c.previous c.rest)
        (Parser.takeBalanced phrase depth d.previous d.rest) := by
    induction ts with
    | nil =>
      intro depth c d hcd hrest
      have hnil : x.At false ⟨c.previous, []⟩ ⟨d.previous, []⟩ :=
        ⟨by rw [hcd.tail_eq hrest]; rfl, .nil, nofun⟩
      rw [hrest, hcd.rest_nil hrest]
      exact .failed rfl hnil
    | cons t ts ih =>
      intro depth c d hcd hrest
      have honward (ht : t.kind ∉ stops) (depth : Nat) :=
        (ih depth _ _ ((hcd.step hrest ht).mono (Nat.sub_le _ _)) rfl).behind (t := t)
      have hstop : x.At false ⟨c.previous, t :: ts⟩
          ⟨d.previous, x.token t :: (ts.map x.token ++ x.tail)⟩ :=
        ⟨rfl, hrest ▸ hcd.spaced, nofun⟩
      rw [hcd.rest_cons hrest, hrest]
      unfold Parser.takeBalanced
      simp only [token_kind]
      split
      case h_1 hk | h_2 hk | h_3 hk => exact honward (by rw [hk]; decide) _
      case h_4 hk =>
        have ht : t.kind ∉ stops := by rw [hk]; decide
        cases depth with
        | zero => exact .found rfl ((hcd.step hrest ht).mono (Nat.sub_le _ _))
        | succ depth => exact honward ht depth
      case h_5 hk | h_6 hk | h_7 hk => exact .failed rfl hstop
      case h_8 hleft hright hsemicolon =>
        refine honward (fun hk => ?_) _
        simp only [stops, braces, List.mem_cons, List.not_mem_nil, or_false] at hk
        rcases hk with hk | hk | hk
        · exact hsemicolon hk
        · exact hleft hk
        · exact hright hk
  exact fun c d hcd => hfrom c.rest 0 c d hcd rfl

end Rows

end Mirrors

end Transfer

end LessCss
