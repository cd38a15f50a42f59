import LessCss.Proofs.Lexing.Ending

/-!
# Texts put side by side

A text may be cut differently when something else follows it than what followed before.  Here the
text is a *fragment* (`Lexer.Fragment`): some pieces of a longer text, none of them a stray stretch,
the last one a token, and every function in it closed again.  Before a separator of selectors or a
block a fragment keeps its pieces (`Lexer.Fragment.pieces_append`), with one exception: a blank
belongs to an escape of digits at the end.

Each pattern has its own reason not to go on behind the fragment.  Words and numbers have no
separators in them; names go on with escapes only; what is quoted, or begins with a bang or `@` and
a brace, would be a stray stretch if it had no end in the fragment; a comment would have had its end
in the longer text as well; and an address without quotes does not go on behind the parenthesis that
closes it.
-/

namespace LessCss

namespace Pattern

variable {p : Pattern}

/-- A pattern finds nothing in a text that goes beyond its first part. -/
def Within (p : Pattern) (a b : List Char) : Prop := ∀ n, p (a ++ b) = some n → n ≤ a.length

/-- A pattern that finds nothing beyond the first part finds the same in it alone. -/
theorem Local.eq_of_within (hp : p.Local) {a b : List Char} (h : p.Within a b) :
    p (a ++ b) = p a := by
  cases hab : p (a ++ b) with
  | none => exact (hp.none_of_append hab).symm
  | some n => exact (hp.shrinks hab (h n hab)).symm

theorem Local.within_of_eq (hp : p.Local) {a b : List Char} (h : p (a ++ b) = p a) : p.Within a b :=
  fun _ hn => hp.bounded (h ▸ hn)

/-- A match that stays the same when the text goes on does not go beyond the text. -/
theorem Fixed.within (hp : p.Fixed) (hlocal : p.Local) {a : List Char} {n : Nat} (h : p a = some n)
    (b : List Char) : p.Within a b := hlocal.within_of_eq (by rw [h, hp a b n h])

/-- What goes beyond the first part is a word that starts with it. -/
theorem within_of_not_accepts {a b : List Char} {c : Char} (h : ∀ z, ¬ p.Accepts (a ++ c :: z)) :
    p.Within a (c :: b) := by
  intro n hn
  by_contra hlt
  obtain ⟨m, rfl⟩ : ∃ m, n = a.length + (m + 1) := ⟨n - a.length - 1, by omega⟩
  refine h (b.take m) ⟨a ++ c :: b, _, hn, ?_⟩
  rw [List.take_length_add_append, List.take_succ_cons]

end Pattern

namespace Lexer

open Pattern

/-! ## Fragments -/

/-- Some pieces of a text and what follows them: no stray stretches, the last one a token, every
function closed. -/
structure Fragment (qs : List Piece) (rest : List Char) : Prop where
  cut : pieces (textOf qs ++ rest) = qs ++ pieces rest
  known : ∀ q ∈ qs, q.cut ≠ none
  last : ∃ ps k text, qs = ps ++ [⟨some (.token k), text⟩]
  closed : ∀ ps text post, qs = ps ++ ⟨some (.token .function), text⟩ :: post →
    ∃ text, ⟨some (.token .rightParen), text⟩ ∈ post

namespace Fragment

variable {q : Piece} {qs : List Piece} {rest : List Char}

/-- Without its first piece a fragment is one, if any pieces are left. -/
theorem tail (h : Fragment (q :: qs) rest) (hne : qs ≠ []) : Fragment qs rest where
  cut := by
    have hcut := h.cut
    rw [textOf_cons, List.append_assoc] at hcut
    have hsplit : pieces (q.text ++ (textOf qs ++ rest)) = [q] ++ (qs ++ pieces rest) := hcut
    exact (Lexer.pieces_append hsplit (by simp)).2
  known := (List.forall_mem_cons.mp h.known).2
  last := by
    obtain ⟨ps, k, text, hps⟩ := h.last
    cases ps with
    | nil => exact absurd (List.cons.inj hps).2 hne
    | cons p ps => exact ⟨ps, k, text, (List.cons.inj hps).2⟩
  closed ps text post hps := h.closed (q :: ps) text post (by rw [hps, List.cons_append])

/-- The text of a fragment is cut into its pieces. -/
theorem pieces_eq (h : Fragment qs rest) : pieces (textOf qs) = qs :=
  (Lexer.pieces_append h.cut rfl).1

theorem text_ne_nil (h : Fragment qs rest) : ∀ p ∈ qs, p.text ≠ [] :=
  h.pieces_eq ▸ Lexer.text_ne_nil

theorem ne_nil (h : Fragment qs rest) : qs ≠ [] := by
  obtain ⟨ps, k, text, rfl⟩ := h.last
  simp

/-- In the whole text, the lexer cuts off the first piece of a fragment. -/
theorem cut?_eq (h : Fragment (q :: qs) rest) :
    ∃ x, q.cut = some x ∧ cut? (textOf (q :: qs) ++ rest) = some (x, q.text.length) := by
  obtain ⟨x, hx⟩ := Option.ne_none_iff_exists'.mp (h.known q List.mem_cons_self)
  exact ⟨x, hx, cut?_of_pieces h.cut hx⟩

/-- In the fragment alone, the lexer cuts off its first piece as well. -/
theorem cut?_textOf (h : Fragment (q :: qs) rest) :
    ∃ x, q.cut = some x ∧ cut? (textOf (q :: qs)) = some (x, q.text.length) := by
  obtain ⟨x, hx, hcut⟩ := h.cut?_eq
  exact ⟨x, hx, cut?_of_append hcut (by simp)⟩

/-- The last piece is a token, and does not start with a blank. -/
theorem exists_last (h : Fragment qs rest) : ∃ ps k c w, qs = ps ++ [⟨some (.token k), c :: w⟩] ∧
    pieces (c :: w) = [⟨some (.token k), c :: w⟩] ∧ isBlank c = false := by
  obtain ⟨ps, k, text, rfl⟩ := h.last
  have hcut := h.pieces_eq
  rw [textOf_append] at hcut
  have hlast := (Lexer.pieces_append hcut rfl).2
  rw [textOf_cons, textOf_nil, List.append_nil] at hlast
  obtain ⟨c, w, rfl⟩ := List.exists_cons_of_ne_nil (h.text_ne_nil ⟨some (.token k), text⟩ (by simp))
  exact ⟨ps, k, c, w, rfl, hlast, isBlank_of_token (cut?_of_pieces hlast rfl)⟩

/-- A fragment leaves no backslash dangling. -/
theorem dangles_eq_false (h : Fragment qs rest) : dangles (textOf qs) = false := by
  obtain ⟨ps, k, c, w, rfl, hlast, hc⟩ := h.exists_last
  have hcut := h.pieces_eq
  have hbefore : dangles (textOf ps) = false := by
    refine dangles_before (c := c) (w := w) ?_ (fun q hq => h.known q (by simp [hq])) ?_
    · simpa [hlast] using hcut
    · rw [isBlank, Bool.or_eq_false_iff] at hc
      exact hc.2
  rw [textOf_append, dangles_append hbefore]
  simpa using dangles_first hlast (by simp) (by simp)

/-- No fragment is a blank or a comment. -/
theorem not_trivia (h : Fragment (q :: qs) rest) (k : TriviaKind) :
    cut? (textOf (q :: qs)) ≠ some (.trivia k, (textOf (q :: qs)).length) := by
  intro htrivia
  obtain ⟨x, hx, hcut⟩ := h.cut?_textOf
  rw [htrivia] at hcut
  obtain ⟨rfl, hlength⟩ := Prod.mk.inj (Option.some.inj hcut)
  have hqs : qs = [] := by
    cases qs with
    | nil => rfl
    | cons p qs =>
      have hp := List.length_pos_iff.mpr (h.text_ne_nil p (by simp))
      simp only [textOf_cons, List.length_append] at hlength
      omega
  obtain ⟨ps, k, text, hlast⟩ := h.last
  have hone : [] ++ [q] = ps ++ [⟨some (.token k), text⟩] := by rw [← hlast, hqs, List.nil_append]
  rw [(List.cons.inj (List.append_inj' hone rfl).2).1] at hx
  cases hx

/-! ### Patterns -/

section Within

variable {c : Char} {b : List Char}

/-- A token that would be a stray stretch without its end. -/
theorem within_of_start {k : Kind} (h : Fragment (q :: qs) rest) (hfixed : (patternOf k).Fixed)
    (htrivia : ∀ k, triviaPattern k (textOf (q :: qs)) = none)
    (hothers : ∀ j, j ≠ k → patternOf j (textOf (q :: qs)) = none) :
    (patternOf k).Within (textOf (q :: qs)) (c :: b) := by
  obtain ⟨x, -, hcut⟩ := h.cut?_textOf
  obtain ⟨n, hn⟩ := exists_patternOf_of_cut? hcut htrivia hothers
  exact hfixed.within (patternOf_local k) hn _

theorem exists_cons (h : Fragment (q :: qs) rest) : ∃ d w, textOf (q :: qs) = d :: w := by
  obtain ⟨d, w, hq⟩ := List.exists_cons_of_ne_nil (h.text_ne_nil q List.mem_cons_self)
  exact ⟨d, w ++ textOf qs, by rw [textOf_cons, hq, List.cons_append]⟩

/-- No string goes beyond a fragment. -/
theorem within_string (h : Fragment (q :: qs) rest) :
    (patternOf .string).Within (textOf (q :: qs)) (c :: b) := by
  obtain ⟨d, w, htext⟩ := h.exists_cons
  intro n hn
  have hquote : d = '\x22' ∨ d = '\x27' := by
    obtain ⟨e, v, hcons, he⟩ := string_starts _ _ hn
    rw [htext] at hcons
    rwa [(List.cons.inj hcons).1]
  refine h.within_of_start (k := .string) string_fixed (fun k => ?_) (fun j hj => ?_) n hn
  · rw [htext, triviaPattern_quote hquote]
  · rw [htext, patternOf_quote hj hquote]

theorem within_important (h : Fragment (q :: qs) rest) :
    (patternOf .important).Within (textOf (q :: qs)) (c :: b) := by
  obtain ⟨d, w, htext⟩ := h.exists_cons
  intro n hn
  have hbang : d = '!' := by
    rw [htext] at hn
    obtain ⟨i, j, hi, -, -⟩ := seq_eq_some.mp hn
    obtain ⟨v, hv, -⟩ := just_eq_some.mp hi
    exact (List.cons.inj hv).1
  subst hbang
  refine h.within_of_start important_fixed (fun k => ?_)
    (fun j hj => htext ▸ patternOf_bang hj w) n hn
  rw [htext]
  cases k <;> rfl

theorem within_atBraces (h : Fragment (q :: qs) rest) :
    (patternOf .atBraces).Within (textOf (q :: qs)) (c :: b) := by
  obtain ⟨d, w, htext⟩ := h.exists_cons
  intro n hn
  have hbrace : d = '@' ∧ ∃ v, w ++ c :: b = '\x7b' :: v := by
    rw [htext] at hn
    obtain ⟨i, j, hi, -, -⟩ := seq_eq_some.mp hn
    rw [word_eq, wordVia_eq_some, List.map_id] at hi
    obtain ⟨v, hv⟩ := hi.1
    obtain ⟨hat, hbehind⟩ := List.cons.inj hv
    exact ⟨hat.symm, v, hbehind.symm⟩
  obtain ⟨rfl, v, hv⟩ := hbrace
  cases w with
  | nil =>
    -- an at sign alone would be a stray stretch
    obtain ⟨x, -, hcut⟩ := h.cut?_textOf
    rw [htext] at hcut
    rcases exists_match_of_cut? hcut with ⟨k, m, hm⟩ | ⟨k, m, hm⟩
    · cases k <;> cases hm
    · rw [patternOf_at_nil] at hm
      cases hm
  | cons e w =>
    obtain ⟨rfl, -⟩ := List.cons.inj hv
    refine h.within_of_start atBraces_fixed (fun k => ?_)
      (fun j hj => htext ▸ patternOf_at_brace hj w) n hn
    rw [htext]
    cases k <;> rfl

/-- A guarded pattern does not go beyond a fragment, unless a blank belongs to an escape at its
end. -/
theorem within_guarded {k : Kind} (h : Fragment (q :: qs) rest) (hc : c ∈ separators)
    (hescape : isBlank c = true → endsInEscape (textOf (q :: qs)) = false)
    (hk : Guards (patternOf k)) :
    (patternOf k).Within (textOf (q :: qs)) (c :: b) := by
  refine within_of_not_accepts fun z hz => ?_
  rcases (hk _ hz).2 _ c z rfl hc with hdangles | ⟨hblank, hend⟩
  · rw [h.dangles_eq_false] at hdangles
    cases hdangles
  · rw [hescape hblank] at hend
    cases hend

/-! ### Trivia -/

/-- Blanks do not go beyond a fragment, since it ends in a token. -/
theorem within_blank (h : Fragment (q :: qs) rest) :
    (triviaPattern .blank).Within (textOf (q :: qs)) (c :: b) := by
  intro n hn
  obtain ⟨-, rfl⟩ := blank_eq_some.mp hn
  rw [length_takeWhile_append]
  split
  · rename_i hall
    obtain ⟨d, w, htext⟩ := h.exists_cons
    rw [htext] at hall
    refine absurd ?_ (h.not_trivia .blank)
    rw [htext]
    exact cut?_of_trivia [] rfl (blank_eq_some.mpr ⟨Nat.succ_ne_zero _, hall⟩) nofun
  · exact length_takeWhile_le _ _

/-- Before a separator no comment starts with the last character. -/
theorem eq_cons_cons {w : List Char} {d e : Char} (h : Fragment (q :: qs) rest) (hne : c ≠ e)
    (hw : textOf (q :: qs) ++ c :: b = d :: e :: w) : ∃ v, textOf (q :: qs) = d :: e :: v := by
  obtain ⟨f, v, htext⟩ := h.exists_cons
  rw [htext] at hw ⊢
  obtain ⟨rfl, hbehind⟩ := List.cons.inj hw
  cases v with
  | nil => exact absurd (List.cons.inj hbehind).1 hne
  | cons g v =>
    obtain ⟨rfl, -⟩ := List.cons.inj hbehind
    exact ⟨v, rfl⟩

theorem ne_comment_of_separator (hc : c ∈ separators) : c ≠ '*' ∧ c ≠ '/' :=
  forall_separators (P := fun c => c ≠ '*' ∧ c ≠ '/') (by decide) c hc

/-- A line comment does not go beyond a fragment, since it ends in a token. -/
theorem within_lineComment (h : Fragment (q :: qs) rest) (hc : c ∈ separators) :
    (triviaPattern .lineComment).Within (textOf (q :: qs)) (c :: b) := by
  intro n hn
  obtain ⟨i, j, hi, hj, rfl⟩ := seq_eq_some.mp (lineComment_eq ▸ hn)
  obtain ⟨⟨w, hw⟩, rfl⟩ := word_pair_eq_some.mp hi
  obtain ⟨v, htext⟩ := h.eq_cons_cons (ne_comment_of_separator hc).2 hw
  rw [htext] at hj ⊢
  cases hj
  rw [List.cons_append, List.cons_append, List.drop_succ_cons, List.drop_succ_cons, List.drop_zero,
    length_takeWhile_append]
  split
  · rename_i hall
    refine absurd ?_ (h.not_trivia .lineComment)
    rw [htext]
    refine cut?_of_trivia [.blank, .blockComment] rfl ?_ ?_
    · rw [lineComment_eq]
      exact seq_eq_some.mpr ⟨2, v.length, rfl, congrArg some hall, Nat.add_comm v.length 2⟩
    · simp only [List.forall_mem_cons]
      exact ⟨rfl, rfl, nofun⟩
  · have hle := length_takeWhile_le (fun c => !isLineEnd c) v
    simp only [List.length_cons]
    omega

/-- A comment that starts with a fragment ends in it: if it went on, the fragment would be cut
differently. -/
theorem blockComment_ends {v : List Char} (h : Fragment (q :: qs) rest)
    (htext : textOf (q :: qs) = '/' :: '*' :: v) (hrest : ['*', '/'] <:+: rest) :
    ['*', '/'] <:+: v := by
  by_contra hv
  obtain ⟨x, -, hcut⟩ := h.cut?_eq
  obtain ⟨m, hm⟩ := Option.ne_none_iff_exists'.mp
    (commentBody_ne_none_iff.mpr (hrest.trans (List.suffix_append v rest).isInfix))
  have hmatch : triviaPattern .blockComment (textOf (q :: qs) ++ rest) = some (m + 1 + 1) := by
    rw [blockComment_eq, htext]
    exact seq_eq_some.mpr ⟨2, m, rfl, hm, by omega⟩
  have hblank : ∀ k ∈ [TriviaKind.blank], triviaPattern k (textOf (q :: qs) ++ rest) = none := by
    rw [htext]
    simp only [List.forall_mem_cons]
    exact ⟨rfl, nofun⟩
  rw [cut?_of_trivia [.blank] rfl hmatch hblank] at hcut
  obtain ⟨-, hlength⟩ := Prod.mk.inj (Option.some.inj hcut)
  refine hv (commentBody_ne_none_iff.mp ?_)
  have hle : m + 2 ≤ (textOf (q :: qs)).length := by
    rw [textOf_cons, List.length_append]
    omega
  rw [htext, List.length_cons, List.length_cons] at hle
  rw [commentBody_local.shrinks hm (by omega)]
  nofun

/-- A block comment does not go beyond a fragment, unless it is closed later on. -/
theorem within_blockComment (h : Fragment (q :: qs) rest) (hc : c ∈ separators)
    (hcomment : ['*', '/'] <:+: b → ['*', '/'] <:+: rest) :
    (triviaPattern .blockComment).Within (textOf (q :: qs)) (c :: b) := by
  intro n hn
  obtain ⟨hstar, hslash⟩ := ne_comment_of_separator hc
  obtain ⟨i, j, hi, hj, rfl⟩ := seq_eq_some.mp (blockComment_eq ▸ hn)
  obtain ⟨⟨w, hw⟩, rfl⟩ := word_pair_eq_some.mp hi
  obtain ⟨v, htext⟩ := h.eq_cons_cons hstar hw
  rw [htext] at hj ⊢
  rw [List.cons_append, List.cons_append, List.drop_succ_cons, List.drop_succ_cons,
    List.drop_zero] at hj
  have hend : ['*', '/'] <:+: v := by
    rcases infix_append_cons hstar hslash
        (commentBody_ne_none_iff.mp (by rw [hj]; nofun)) with hv | hb
    · exact hv
    · exact h.blockComment_ends htext (hcomment hb)
  obtain ⟨m, hm⟩ := Option.ne_none_iff_exists'.mp (commentBody_ne_none_iff.mpr hend)
  rw [commentBody_fixed v (c :: b) m hm] at hj
  cases hj
  have hle := commentBody_local.bounded hm
  simp only [List.length_cons]
  omega

/-! ### Addresses -/

/-- Somewhere among some pieces a parenthesis is closed. -/
def Closes (qs : List Piece) : Prop := ∃ text, ⟨some (.token .rightParen), text⟩ ∈ qs

theorem Closes.ne_nil (h : Closes qs) : qs ≠ [] := by
  obtain ⟨text, hmem⟩ := h
  exact List.ne_nil_of_mem hmem

/-- Where a parenthesis is closed, it is a token of its own. -/
theorem exists_of_closes (h : Fragment qs rest) (hcloses : Closes qs) :
    ∃ ps post, qs = ps ++ ⟨some (.token .rightParen), [')']⟩ :: post := by
  obtain ⟨text, hmem⟩ := hcloses
  have haccepts : (just ')').Accepts text :=
    accepts_of_mem_pieces ⟨some (.token .rightParen), text⟩ (h.pieces_eq ▸ hmem) .rightParen rfl
  rw [Accepts.just haccepts] at hmem
  obtain ⟨ps, post, hqs⟩ := List.append_of_mem hmem
  exact ⟨ps, post, hqs⟩

/-- A run of characters stops before one that is none of them. -/
theorem length_takeWhile_le_of_stop {f : Char → Bool} {d : Char} (hd : f d = false)
    (u v : List Char) :
    ((u ++ d :: v).takeWhile f).length ≤ u.length := by
  rw [length_takeWhile_append]
  split
  · simp [hd]
  · exact length_takeWhile_le f u

/-- The end of an address is found no later than where a parenthesis is closed. -/
theorem uriClose_le {u v : List Char} {n : Nat} (h : uriClose (u ++ ')' :: v) = some n) :
    n ≤ u.length + 1 := by
  obtain ⟨i, j, hi, hj, rfl⟩ := seq_eq_some.mp (uriClose.eq_def ▸ h)
  obtain ⟨w, -, rfl⟩ := just_eq_some.mp hj
  cases hi
  exact Nat.succ_le_succ (length_takeWhile_le_of_stop rfl u v)

/-- Blanks at the start are a piece. -/
theorem exists_drop_blanks (h : Fragment qs rest) (hcloses : Closes qs) :
    ∃ qs', Fragment qs' rest ∧ Closes qs' ∧ textOf qs' = (textOf qs).dropWhile isBlank := by
  cases qs with
  | nil => exact absurd rfl h.ne_nil
  | cons q qs =>
    by_cases hblank : q.cut = some (.trivia .blank)
    · obtain ⟨x, hx, hcut⟩ := h.cut?_textOf
      rw [hblank] at hx
      cases hx
      obtain ⟨-, hlength⟩ := blank_eq_some.mp (triviaPattern_of_cut? hcut)
      have hcloses' : Closes qs := by
        obtain ⟨text, hmem⟩ := hcloses
        rcases List.mem_cons.mp hmem with rfl | hmem
        · cases hblank
        · exact ⟨text, hmem⟩
      refine ⟨qs, h.tail hcloses'.ne_nil, hcloses', ?_⟩
      rw [← drop_length_takeWhile, hlength, textOf_cons, List.drop_left]
    · obtain ⟨d, w, htext⟩ := h.exists_cons
      refine ⟨q :: qs, h, hcloses, ?_⟩
      have hd : ¬ isBlank d = true := by
        intro hd
        obtain ⟨x, hx, hcut⟩ := h.cut?_textOf
        rw [htext] at hcut
        have hmatch : triviaPattern .blank (d :: w) = some ((w.takeWhile isBlank).length + 1) := by
          rw [blank_eq_some, List.takeWhile_cons_of_pos hd]
          exact ⟨Nat.succ_ne_zero _, rfl⟩
        rw [cut?_of_trivia [] rfl hmatch nofun] at hcut
        obtain ⟨rfl, -⟩ := Prod.mk.inj (Option.some.inj hcut)
        exact hblank hx
      rw [htext, List.dropWhile_cons_of_neg hd]

/-- What does not go beyond a fragment does not do so behind blanks. -/
theorem within_blanks {p : Pattern} (h : Fragment qs rest) (hcloses : Closes qs)
    (hp : ∀ qs', Fragment qs' rest → Closes qs' → p.Within (textOf qs') (c :: b)) :
    (seq blanks p).Within (textOf qs) (c :: b) := by
  obtain ⟨qs', h', hcloses', htext⟩ := h.exists_drop_blanks hcloses
  intro n hn
  obtain ⟨i, j, hi, hj, rfl⟩ := seq_eq_some.mp hn
  have hstop : blanks (textOf qs ++ c :: b) = some ((textOf qs).takeWhile isBlank).length := by
    obtain ⟨ps, post, rfl⟩ := h.exists_of_closes hcloses
    have hle := length_takeWhile_le_of_stop (f := isBlank) (d := ')') rfl (textOf ps) (textOf post)
    refine run_firm isBlank _ (c :: b) _ rfl (Nat.lt_of_le_of_lt ?_ (?_ : (textOf ps).length < _))
    · simpa using hle
    · simp
  rw [hstop] at hi
  cases hi
  have hle := length_takeWhile_le isBlank (textOf qs)
  rw [List.drop_append_of_le_length hle, drop_length_takeWhile, ← htext] at hj
  have hwithin := hp qs' h' hcloses' j hj
  have hlength :=
    congrArg List.length (List.takeWhile_append_dropWhile (p := isBlank) (l := textOf qs))
  rw [List.length_append, ← htext] at hlength
  omega

/-- An address in quotes ends at the parenthesis that closes it in the fragment. -/
theorem within_quoted (h : Fragment qs rest) (hcloses : Closes qs) :
    (seq string uriClose).Within (textOf qs) (c :: b) := by
  cases qs with
  | nil => exact absurd rfl h.ne_nil
  | cons q qs =>
    intro n hn
    obtain ⟨i, j, hi, hj, rfl⟩ := seq_eq_some.mp hn
    rw [string_local.eq_of_within h.within_string] at hi
    obtain ⟨d, w, htext, hquote⟩ := string_starts _ _ hi
    -- the string is the first piece, so that the parenthesis is closed behind it
    obtain ⟨hstring, hlength⟩ : q.cut = some (.token .string) ∧ q.text.length = i := by
      obtain ⟨x, hx, hcut⟩ := h.cut?_textOf
      rcases x with k | k
      · have hmatch := patternOf_of_cut? hcut
        by_cases hk : k = .string
        · subst hk
          exact ⟨hx, Option.some.inj (hmatch.symm.trans hi)⟩
        · rw [htext, patternOf_quote hk hquote] at hmatch
          cases hmatch
      · have hmatch := triviaPattern_of_cut? hcut
        rw [htext, triviaPattern_quote hquote] at hmatch
        cases hmatch
    have hcloses' : Closes qs := by
      obtain ⟨text, hmem⟩ := hcloses
      rcases List.mem_cons.mp hmem with rfl | hmem
      · cases hstring
      · exact ⟨text, hmem⟩
    obtain ⟨ps, post, rfl⟩ := (h.tail hcloses'.ne_nil).exists_of_closes hcloses'
    rw [textOf_cons, List.append_assoc, ← hlength, List.drop_left, textOf_append, textOf_cons,
      List.append_assoc] at hj
    have hle := uriClose_le hj
    simp only [textOf_append, textOf_cons, List.length_append, List.length_cons]
    omega

theorem within_bare (h : Fragment qs rest) (hcloses : Closes qs) :
    (seq (many (orEscape isUriChar)) uriClose).Within (textOf qs) (c :: b) := by
  obtain ⟨ps, post, rfl⟩ := h.exists_of_closes hcloses
  intro n hn
  obtain ⟨i, j, hi, hj, rfl⟩ := seq_eq_some.mp hn
  have hdangles : dangles (textOf ps) = false := by
    have hcut := h.pieces_eq
    rw [textOf_append] at hcut
    refine dangles_before (c := ')') (w := textOf post) ?_
      (fun q hq => h.known q (by simp [hq])) rfl
    exact hcut.trans (congrArg _ (Lexer.pieces_append hcut rfl).2.symm)
  have hwithin :
      (many (orEscape isUriChar)).Within (textOf ps) (')' :: (textOf post ++ c :: b)) := by
    refine within_of_not_accepts fun z hz => ?_
    rcases (escaped_of_many hz).of_append_cons rfl rfl (by decide) rfl with hz | ⟨hblank, -⟩
    · rw [hdangles] at hz
      cases hz
    · cases hblank
  rw [textOf_append, textOf_cons, List.append_assoc, List.append_assoc] at hi hj
  have hle := hwithin i hi
  rw [List.drop_append_of_le_length hle] at hj
  have hle' := uriClose_le hj
  rw [List.length_drop] at hle'
  simp only [textOf_append, textOf_cons, List.length_append, List.length_cons]
  omega

/-- No address is both in quotes and without. -/
theorem uriBare_of_uriString {cs : List Char} {n : Nat} (h : patternOf .uriString cs = some n) :
    patternOf .uriBare cs = none := by
  obtain ⟨i, j, hi, hj, -⟩ := seq_eq_some.mp h
  obtain ⟨k, l, hk, hl, -⟩ := seq_eq_some.mp hj
  obtain ⟨m, -, hm, -, -⟩ := seq_eq_some.mp hl
  obtain ⟨d, w, htext, hquote⟩ := string_starts _ _ hm
  have hbare : seq (many (orEscape isUriChar)) uriClose (d :: w) = none := by
    rcases hquote with rfl | rfl <;> rfl
  rw [← htext] at hbare
  by_contra hsome
  obtain ⟨n', hn'⟩ := Option.ne_none_iff_exists'.mp hsome
  obtain ⟨i', j', hi', hj', -⟩ := seq_eq_some.mp hn'
  cases hi.symm.trans hi'
  obtain ⟨k', l', hk', hl', -⟩ := seq_eq_some.mp hj'
  cases hk.symm.trans hk'
  cases hbare.symm.trans hl'

/-- An address that is found starts with the word `url` and a parenthesis in the fragment. -/
theorem exists_url {p : Pattern} {n : Nat} (hc : c ∈ separators)
    (hn : seq uriOpen p (textOf qs ++ c :: b) = some n) :
    ∃ w, textOf qs = 'u' :: 'r' :: 'l' :: '(' :: w := by
  obtain ⟨i, j, hi, -, -⟩ := seq_eq_some.mp hn
  rw [uriOpen, word_eq, wordVia_eq_some, List.map_id] at hi
  obtain ⟨v, hv⟩ := hi.1
  rcases List.append_eq_append_iff.mp hv with ⟨w, hw, -⟩ | ⟨w, hw, hcons⟩
  · exact ⟨w, hw⟩
  · cases w with
    | nil => exact ⟨[], by rw [← List.append_nil (textOf qs), ← hw]⟩
    | cons d w =>
      obtain ⟨rfl, -⟩ := List.cons.inj hcons
      have hmem : c ∈ ['u', 'r', 'l', '('] := by rw [hw]; simp
      have hout : ∀ e ∈ separators, e ∉ ['u', 'r', 'l', '('] := forall_separators (by decide)
      exact absurd hmem (hout c hc)

/-- An address that does not end within the fragment is a function there. -/
theorem within_function {p : Pattern} (h : Fragment (q :: qs) rest) {w : List Char}
    (htext : textOf (q :: qs) = 'u' :: 'r' :: 'l' :: '(' :: w)
    (hstring : patternOf .uriString (textOf (q :: qs)) = none)
    (hbare : patternOf .uriBare (textOf (q :: qs)) = none)
    (hp : ∀ qs', Fragment qs' rest → Closes qs' → p.Within (textOf qs') (c :: b)) :
    (seq uriOpen (seq blanks p)).Within (textOf (q :: qs)) (c :: b) := by
  obtain ⟨x, hx, hcut⟩ := h.cut?_textOf
  rw [htext] at hstring hbare hcut
  rw [cut?_url hstring hbare] at hcut
  obtain ⟨rfl, hlength⟩ := Prod.mk.inj (Option.some.inj hcut)
  have hcloses : Closes qs := by
    obtain ⟨cut, text⟩ := q
    cases hx
    exact h.closed [] text qs rfl
  intro n hn
  obtain ⟨i, j, hi, hj, rfl⟩ := seq_eq_some.mp hn
  rw [uriOpen, word_eq, wordVia_eq_some] at hi
  obtain rfl : q.text.length = i := hlength.symm.trans hi.2
  rw [textOf_cons, List.append_assoc, List.drop_left] at hj
  have hle := (h.tail hcloses.ne_nil).within_blanks hcloses hp j hj
  rw [textOf_cons, List.length_append]
  omega

/-- No address in quotes goes beyond a fragment. -/
theorem within_uriString (h : Fragment (q :: qs) rest) (hc : c ∈ separators) :
    (patternOf .uriString).Within (textOf (q :: qs)) (c :: b) := by
  intro n hn
  obtain ⟨w, htext⟩ := exists_url hc hn
  cases hstring : patternOf .uriString (textOf (q :: qs)) with
  | some m => exact uriString_fixed.within (patternOf_local _) hstring _ n hn
  | none =>
    cases hbare : patternOf .uriBare (textOf (q :: qs)) with
    | some m =>
      have hboth := uriBare_fixed _ (c :: b) m hbare
      rw [uriBare_of_uriString hn] at hboth
      cases hboth
    | none => exact h.within_function htext hstring hbare (fun _ h' => h'.within_quoted) n hn

theorem within_uriBare (h : Fragment (q :: qs) rest) (hc : c ∈ separators) :
    (patternOf .uriBare).Within (textOf (q :: qs)) (c :: b) := by
  intro n hn
  obtain ⟨w, htext⟩ := exists_url hc hn
  cases hbare : patternOf .uriBare (textOf (q :: qs)) with
  | some m => exact uriBare_fixed.within (patternOf_local _) hbare _ n hn
  | none =>
    cases hstring : patternOf .uriString (textOf (q :: qs)) with
    | some m =>
      have hboth := uriString_fixed _ (c :: b) m hstring
      rw [uriBare_of_uriString hboth] at hn
      cases hn
    | none => exact h.within_function htext hstring hbare (fun _ h' => h'.within_bare) n hn

/-! ### Pieces -/

section Before

variable (hc : c ∈ separators)

include hc

/-- No token goes beyond a fragment. -/
theorem within_patternOf (h : Fragment (q :: qs) rest)
    (hescape : isBlank c = true → endsInEscape (textOf (q :: qs)) = false) (k : Kind) :
    (patternOf k).Within (textOf (q :: qs)) (c :: b) := by
  obtain ⟨d, w, htext⟩ := h.exists_cons
  cases k with
  | uriString => exact h.within_uriString hc
  | uriBare => exact h.within_uriBare hc
  | string => exact h.within_string
  | important => exact h.within_important
  | atBraces => exact h.within_atBraces
  | leftBrace | greater | plus | tilde =>
    intro n hn
    obtain ⟨v, -, rfl⟩ := just_eq_some.mp hn
    simp [htext]
  | attributeMatch =>
    -- its second character is the last one, and no separator
    refine within_of_not_accepts fun z hz => ?_
    obtain ⟨u, v, hu, hv, huv⟩ := Accepts.seq (p := optional _) (q := just '=') hz
    rw [Accepts.just hv, htext] at huv
    have hend : c = '=' := by
      rcases Accepts.optional hu with rfl | hu
      · simp at huv
      · obtain ⟨e, rfl, -⟩ := Accepts.char hu
        obtain ⟨-, hbehind⟩ := List.cons.inj huv
        cases w with
        | nil => exact (List.cons.inj hbehind).1
        | cons f w => simp at hbehind
    rw [hend] at hc
    exact absurd hc (by decide)
  | _ => exact h.within_guarded hc hescape (.patternOf (by decide))

/-- No trivia go beyond a fragment. -/
theorem within_triviaPattern (h : Fragment (q :: qs) rest)
    (hcomment : ['*', '/'] <:+: b → ['*', '/'] <:+: rest) (k : TriviaKind) :
    (triviaPattern k).Within (textOf (q :: qs)) (c :: b) := by
  cases k with
  | blank => exact h.within_blank
  | blockComment => exact h.within_blockComment hc hcomment
  | lineComment => exact h.within_lineComment hc

/-- The lexer cuts the same off a fragment with a separator behind it as off the fragment alone. -/
theorem cut?_append (h : Fragment (q :: qs) rest)
    (hcomment : ['*', '/'] <:+: b → ['*', '/'] <:+: rest)
    (hescape : isBlank c = true → endsInEscape (textOf (q :: qs)) = false) :
    cut? (textOf (q :: qs) ++ c :: b) = cut? (textOf (q :: qs)) := by
  have hkind (k : Kind) : patternOf k (textOf (q :: qs) ++ c :: b) =
      patternOf k (textOf (q :: qs)) :=
    (patternOf_local k).eq_of_within (h.within_patternOf hc hescape k)
  have hrule : ∀ r ∈ rules, r.cut? (textOf (q :: qs) ++ c :: b) = r.cut? (textOf (q :: qs)) := by
    intro r hr
    rcases List.mem_append.mp hr with hr | hr
    · obtain ⟨k, -, rfl⟩ := List.mem_map.mp hr
      simp only [Rule.cut?, Rule.ofTrivia,
        (triviaPattern_local k).eq_of_within (h.within_triviaPattern hc hcomment k)]
    · obtain ⟨k, -, rfl⟩ := List.mem_map.mp hr
      cases hlonger : longerName k with
      | none => simp only [Rule.cut?, Rule.ofKind, hlonger, Option.map_none, hkind]
      | some longer => simp only [Rule.cut?, Rule.ofKind, hlonger, Option.map_some, hkind]
  obtain ⟨x, -, hcut⟩ := h.cut?_textOf
  rw [hcut]
  obtain ⟨before, r, after, hrules, hr, hbefore⟩ := List.findSome?_eq_some_iff.mp hcut
  rw [hrules] at hrule
  refine List.findSome?_eq_some_iff.mpr ⟨before, r, after, hrules, ?_, fun r' hr' => ?_⟩
  · rw [hrule r (by simp), hr]
  · rw [hrule r' (by simp [hr']), hbefore r' hr']

/-- **A fragment keeps its pieces before a separator**, but for a blank behind an escape of
digits. -/
theorem pieces_append (h : Fragment qs rest) (hcomment : ['*', '/'] <:+: b → ['*', '/'] <:+: rest)
    (hescape : isBlank c = true → endsInEscape (textOf qs) = false) :
    pieces (textOf qs ++ c :: b) = qs ++ pieces (c :: b) := by
  induction qs with
  | nil => rfl
  | cons q qs ih =>
    obtain ⟨x, hx, hcut⟩ := h.cut?_textOf
    have hcut' := (h.cut?_append hc hcomment hescape).trans hcut
    have hfirst : pieces (textOf (q :: qs) ++ c :: b) = q :: pieces (textOf qs ++ c :: b) := by
      obtain ⟨d, w, hq⟩ := List.exists_cons_of_ne_nil (h.text_ne_nil q List.mem_cons_self)
      rw [textOf_cons, List.append_assoc, hq, List.cons_append] at hcut' ⊢
      rw [pieces_of_cut? (n := w.length) hcut', List.take_left, List.drop_left, ← hq, ← hx]
    rw [hfirst, List.cons_append]
    by_cases hqs : qs = []
    · rw [hqs, textOf_nil, List.nil_append, List.nil_append]
    · refine congrArg _ (ih (h.tail hqs) fun hblank => ?_)
      by_contra hend
      obtain ⟨u, digits, htext, hu, hdigits⟩ := endsInEscape_iff.mp (Bool.not_eq_false _ ▸ hend)
      have hcut := h.pieces_eq
      rw [textOf_cons] at hcut
      have hdangles : dangles (q.text ++ u) = false := by
        rw [dangles_first_append hcut (h.known q List.mem_cons_self) htext fun _ =>
          ⟨_, _, rfl, rfl⟩, hu]
      have hwhole : endsInEscape (textOf (q :: qs)) = true :=
        endsInEscape_iff.mpr ⟨q.text ++ u, digits, by rw [textOf_cons, htext, List.append_assoc],
          hdangles, hdigits⟩
      rw [hescape hblank] at hwhole
      cases hwhole

end Before

end Within

end Fragment

end Lexer

end LessCss
