import LessCss.Proofs.Lexing.Escaping

/-!
# Where tokens end

Whether a token could go on is seen from its end.  Words, numbers and units have no separators of
selectors in them, and names have them only escaped (`Lexer.Guards.patternOf`).  Tokens that end in
a character of their own never go on: strings, addresses, marks of importance and variables in
braces (`Pattern.Fixed`); and at the start of most of these no other token can be cut off.

At the end of a piece no backslash is left that has nothing to escape (`Lexer.dangles_before`).
Only a line comment may end in one, and then a line end follows.
-/

namespace LessCss

namespace Pattern

variable {p q : Pattern}

/-! ## Patterns that are at their end -/

/-- A match is fixed if its first part stays the same before whatever the second can start with. -/
theorem seq_fixed_before {C : Char → Prop} (hp : p.Local) (hstays : p.StaysBefore C) (hq : q.Fixed)
    (hstarts : q.Starts C) : (seq p q).Fixed := by
  intro a b n ha
  obtain ⟨i, j, hi, hj, rfl⟩ := seq_eq_some.mp ha
  obtain ⟨c, v, hdrop, hc⟩ := hstarts _ _ hj
  refine seq_eq_some.mpr ⟨i, j, hstays a b i c v hi hdrop hc, ?_, rfl⟩
  rw [List.drop_append_of_le_length (hp.bounded hi)]
  exact hq _ b j hj

/-- A match is fixed if its first part is firm and its second is fixed and never empty. -/
theorem seq_fixed_of_firm (hp : p.Local) (hfirm : p.Firm) (hq : q.Fixed) (hnil : q [] = none) :
    (seq p q).Fixed :=
  seq_fixed_before hp hfirm.staysBefore hq (starts_of_nil hnil)

theorem drop_length_takeWhile (f : Char → Bool) (cs : List Char) :
    cs.drop (cs.takeWhile f).length = cs.dropWhile f := by
  induction cs with
  | nil => rfl
  | cons c cs ih =>
    by_cases hc : f c = true
    · simp [hc, ih]
    · simp [hc]

theorem Accepts.word {u w : List Char} (h : (word u).Accepts w) : w = u := by
  obtain ⟨cs, n, hn, rfl⟩ := h
  rw [word_eq, wordVia_eq_some, List.map_id] at hn
  rw [← hn.2]
  exact (List.prefix_iff_eq_take.mp hn.1).symm

end Pattern

namespace Lexer

open Pattern Text

/-- A string is matched up to its closing quote, whatever follows. -/
theorem string_fixed : string.Fixed := by
  have hin {quote : Char} (hquote : ∀ w, stringChar quote (quote :: w) = none) :
      (stringIn quote).Fixed := by
    refine seq_fixed_of_firm (just_local _) (just_fixed _).firm ?_ rfl
    exact seq_fixed_before (many_local (stringChar_local quote))
      (many_stringChar_staysBefore hquote)
      (just_fixed _) (just_starts _)
  intro a b n ha
  rcases firstOf_cons_eq_some.mp ha with ha | ⟨-, ha⟩
  · exact firstOf_cons_eq_some.mpr (.inl (hin (fun _ => rfl) a b n ha))
  · rw [firstOf_singleton] at ha
    obtain ⟨i, j, hi, _, _⟩ := seq_eq_some.mp ha
    obtain ⟨v, rfl, _⟩ := just_eq_some.mp hi
    refine firstOf_cons_eq_some.mpr (.inr ⟨rfl, ?_⟩)
    rw [firstOf_singleton]
    exact hin (fun _ => rfl) _ b n ha

theorem important_fixed : (patternOf .important).Fixed := by
  refine seq_fixed_of_firm (just_local _) (just_fixed _).firm ?_ rfl
  exact seq_fixed_of_firm (run_local _) (run_firm _) (wordVia_fixed _ _) rfl

theorem atBraces_fixed : (patternOf .atBraces).Fixed := by
  refine seq_fixed_of_firm (word_local _) (word_fixed _).firm ?_ rfl
  refine seq_fixed_before name_local (name_staysBefore ?_) (just_fixed _) (just_starts '\x7d')
  rintro c rfl
  exact fun _ => rfl

theorem uriClose_fixed : uriClose.Fixed :=
  seq_fixed_of_firm (run_local _) (run_firm _) (just_fixed _) rfl

theorem uriString_fixed : (patternOf .uriString).Fixed := by
  refine seq_fixed_of_firm (word_local _) (word_fixed _).firm ?_ rfl
  refine seq_fixed_of_firm (run_local _) (run_firm _) ?_ rfl
  exact seq_fixed_of_firm string_local string_firm uriClose_fixed rfl

theorem uriBare_fixed : (patternOf .uriBare).Fixed := by
  have hmany := many_staysBefore (orEscape_local isUriChar) (orEscape_firm _) fun c hc =>
    uriChar_of_close hc
  refine seq_fixed_of_firm (word_local _) (word_fixed _).firm ?_ rfl
  refine seq_fixed_of_firm (run_local _) (run_firm _) ?_ rfl
  exact seq_fixed_before (many_local (orEscape_local _)) hmany uriClose_fixed uriClose_starts

/-! ## Tokens that are known by their start -/

/-- At a quote no token but a string starts. -/
theorem patternOf_quote {k : Kind} (hk : k ≠ .string) {c : Char} (hc : c = '\x22' ∨ c = '\x27')
    (w : List Char) :
    patternOf k (c :: w) = none := by
  rcases hc with rfl | rfl
  all_goals
    cases k with
    | string => exact absurd rfl hk
    | _ => rfl

/-- At a quote no trivia start. -/
theorem triviaPattern_quote {c : Char} (hc : c = '\x22' ∨ c = '\x27') (k : TriviaKind)
    (w : List Char) :
    triviaPattern k (c :: w) = none := by
  rcases hc with rfl | rfl
  all_goals cases k <;> rfl

theorem string_starts : string.Starts fun c => c = '\x22' ∨ c = '\x27' := by
  intro a n ha
  rcases firstOf_cons_eq_some.mp ha with ha | ⟨-, ha⟩
  · obtain ⟨i, j, hi, -, -⟩ := seq_eq_some.mp ha
    obtain ⟨v, rfl, -⟩ := just_eq_some.mp hi
    exact ⟨_, v, rfl, .inl rfl⟩
  · rw [firstOf_singleton] at ha
    obtain ⟨i, j, hi, -, -⟩ := seq_eq_some.mp ha
    obtain ⟨v, rfl, -⟩ := just_eq_some.mp hi
    exact ⟨_, v, rfl, .inr rfl⟩

/-- At an exclamation mark no token but `!important` starts. -/
theorem patternOf_bang {k : Kind} (hk : k ≠ .important) (w : List Char) :
    patternOf k ('!' :: w) = none := by
  cases k with
  | important => exact absurd rfl hk
  | _ => rfl

theorem patternOf_at_nil (k : Kind) : patternOf k ['@'] = none := by cases k <;> rfl

/-- At an at-sign before a brace no token but a name in braces starts. -/
theorem patternOf_at_brace {k : Kind} (hk : k ≠ .atBraces) (w : List Char) :
    patternOf k ('@' :: '\x7b' :: w) = none := by
  cases k with
  | atBraces => exact absurd rfl hk
  | _ => rfl

/-! ## Blanks and comments -/

theorem lineComment_eq :
    triviaPattern .lineComment = seq (word ['/', '/']) (run fun c => !isLineEnd c) := rfl

theorem blockComment_eq : triviaPattern .blockComment = seq (word ['/', '*']) commentBody := rfl

/-- Blanks are cut off as many as there are. -/
theorem blank_eq_some {cs : List Char} {n : Nat} :
    triviaPattern .blank cs = some n ↔ n ≠ 0 ∧ (cs.takeWhile isBlank).length = n := by
  have heq : triviaPattern .blank = seq (char isBlank) (run isBlank) := by
    rw [← many_char_eq]
    rfl
  rw [heq]
  cases cs with
  | nil =>
    simp [seq, char]
    omega
  | cons c cs =>
    by_cases hc : isBlank c = true
    · simp [seq, char, run, hc]
      omega
    · simp [seq, char, hc]
      omega

theorem word_pair_eq_some {c d : Char} {cs : List Char} {n : Nat} :
    word [c, d] cs = some n ↔ (∃ w, cs = c :: d :: w) ∧ n = 2 := by
  rw [word_eq, wordVia_eq_some, List.map_id]
  exact and_congr ⟨fun ⟨w, hw⟩ => ⟨w, hw.symm⟩, fun ⟨w, hw⟩ => ⟨w, hw.symm⟩⟩ eq_comm

/-- A block comment has an end if there is a closing somewhere. -/
theorem commentBody_ne_none_iff {cs : List Char} : commentBody cs ≠ none ↔ ['*', '/'] <:+: cs := by
  fun_induction commentBody cs with
  | case1 => simp
  | case2 c => simp [List.infix_cons_iff]
  | case3 cs => simpa using (List.prefix_append ['*', '/'] cs).isInfix
  | case4 c d cs hopen ih =>
    rw [Ne, Option.map_eq_none_iff, ← Ne, ih, List.infix_cons_iff (a := c)]
    refine ⟨.inr, fun h => h.resolve_left fun hstart => ?_⟩
    obtain ⟨w, hw⟩ := hstart
    obtain ⟨hc, hd⟩ := List.cons.inj hw
    exact hopen hc.symm (List.cons.inj hd).1.symm

/-- A closing does not come about by a character that is none of its own. -/
theorem infix_append_cons {a b : List Char} {c : Char} (hstar : c ≠ '*') (hslash : c ≠ '/')
    (h : ['*', '/'] <:+: a ++ c :: b) : ['*', '/'] <:+: a ∨ ['*', '/'] <:+: b := by
  obtain ⟨u, v, huv⟩ := h
  rw [List.append_assoc] at huv
  rcases List.append_eq_append_iff.mp huv with ⟨w, rfl, hw⟩ | ⟨w, rfl, hw⟩
  · rcases w with _ | ⟨d, _ | ⟨e, w⟩⟩
    · exact absurd (List.cons.inj hw).1.symm hstar
    · exact absurd (List.cons.inj (List.cons.inj hw).2).1.symm hslash
    · obtain ⟨rfl, hbehind⟩ := List.cons.inj hw
      obtain ⟨rfl, -⟩ := List.cons.inj hbehind
      exact .inl ⟨u, w, by simp⟩
  · cases w with
    | nil => exact absurd (List.cons.inj hw).1 hstar
    | cons d w =>
      obtain ⟨-, rfl⟩ := List.cons.inj hw
      exact .inr ⟨w, v, by simp⟩

section Cutting

variable {cs : List Char} {x : Cut} {n : Nat}

/-- What is cut off is matched by some pattern. -/
theorem exists_match_of_cut? (h : cut? cs = some (x, n)) :
    (∃ k m, triviaPattern k cs = some m) ∨ ∃ k m, patternOf k cs = some m := by
  obtain ⟨r, hr, hcut⟩ := List.exists_of_findSome?_eq_some h
  have hmatch : ∃ m, r.pattern cs = some m := by
    by_contra hnone
    have := Rule.cut?_eq_none_iff.mpr fun m hm => hnone ⟨m + 1, hm⟩
    rw [this] at hcut
    cases hcut
  rcases List.mem_append.mp hr with hr | hr
  · obtain ⟨k, -, rfl⟩ := List.mem_map.mp hr
    exact .inl ⟨k, hmatch⟩
  · obtain ⟨k, -, rfl⟩ := List.mem_map.mp hr
    exact .inr ⟨k, hmatch⟩

/-- Where only one kind of token can start, a token of this kind is cut off. -/
theorem exists_patternOf_of_cut? {k : Kind} (h : cut? cs = some (x, n))
    (htrivia : ∀ k, triviaPattern k cs = none) (hothers : ∀ j, j ≠ k → patternOf j cs = none) :
    ∃ m, patternOf k cs = some m := by
  rcases exists_match_of_cut? h with ⟨j, m, hm⟩ | ⟨j, m, hm⟩
  · rw [htrivia j] at hm
    cases hm
  · by_cases hj : j = k
    · exact ⟨m, hj ▸ hm⟩
    · rw [hothers j hj] at hm
      cases hm

/-- The first piece, if it is no stray stretch, is what is cut off. -/
theorem cut?_of_pieces {q : Piece} {ps : List Piece} (h : pieces cs = q :: ps)
    (hx : q.cut = some x) :
    cut? cs = some (x, q.text.length) := by
  cases cs with
  | nil => rw [pieces] at h; cases h
  | cons c cs =>
    cases hcut : cut? (c :: cs) with
    | none =>
      rw [pieces_of_no_cut hcut] at h
      unfold skip at h
      split at h
      all_goals
        obtain ⟨rfl, -⟩ := List.cons.inj h
        cases hx
    | some cut =>
      obtain ⟨y, n⟩ := cut
      have hpos := cut?_pos hcut
      have hle := le_of_cut? hcut
      obtain ⟨n, rfl⟩ : ∃ n', n = n' + 1 := ⟨n - 1, by omega⟩
      rw [pieces_of_cut? hcut] at h
      obtain ⟨rfl, -⟩ := List.cons.inj h
      cases hx
      rw [List.length_cons] at hle
      rw [List.length_cons, List.length_take, Nat.min_eq_left (Nat.le_of_succ_le_succ hle)]

/-- An address that has no end is taken for a function. -/
theorem cut?_url {w : List Char}
    (hstring : patternOf .uriString ('u' :: 'r' :: 'l' :: '(' :: w) = none)
    (hbare : patternOf .uriBare ('u' :: 'r' :: 'l' :: '(' :: w) = none) :
    cut? ('u' :: 'r' :: 'l' :: '(' :: w) = some (.token .function, 4) := by
  have hnone {k : Kind} (h : patternOf k ('u' :: 'r' :: 'l' :: '(' :: w) = none) :
      (Rule.ofKind k).cut? ('u' :: 'r' :: 'l' :: '(' :: w) = none :=
    Rule.cut?_eq_none_iff.mpr fun m hm => nomatch h.symm.trans hm
  let trivia := [TriviaKind.blank, .blockComment, .lineComment]
  let kinds :=
    [Kind.uriString, .uriBare, .string, .important, .extend, .atImport, .atMedia, .atPlugin,
      .atBraces, .atName]
  refine List.findSome?_eq_some_iff.mpr
    ⟨trivia.map Rule.ofTrivia ++ kinds.map Rule.ofKind, Rule.ofKind .function, _, rfl, rfl, ?_⟩
  rw [List.forall_mem_append, List.forall_mem_map, List.forall_mem_map]
  refine ⟨fun k _ => by cases k <;> rfl, ?_⟩
  simp only [kinds, List.forall_mem_cons]
  exact ⟨hnone hstring, hnone hbare, rfl, rfl, rfl, rfl, rfl, rfl, rfl, rfl, nofun⟩

end Cutting

/-! ## Where tokens end -/

/-- What stands behind an element of a selector that is written: a blank, the sign of a combinator,
or a block. -/
def separators : List Char := [' ', '>', '+', '~', '\x7b']

/-- What holds of each of the five separators holds of all of them. -/
theorem forall_separators {P : Char → Prop} (h : P ' ' ∧ P '>' ∧ P '+' ∧ P '~' ∧ P '\x7b') :
    ∀ c ∈ separators, P c := by
  simpa [separators] using h

/-- A character behind a text belongs to an escape at the end of the text. -/
def Escapes (a : List Char) (c : Char) : Prop :=
  dangles a = true ∨ isBlank c = true ∧ endsInEscape a = true

/-- A character that belongs to an escape belongs to it with any text before the escape. -/
theorem Escapes.append {a : List Char} {c : Char} (h : Escapes a c) {u : List Char}
    (hu : dangles u = false) :
    Escapes (u ++ a) c := by
  unfold Escapes
  rw [dangles_append hu]
  exact h.imp_right fun ⟨hblank, hend⟩ => ⟨hblank, endsInEscape_append hu hend⟩

/-- What a pattern accepts ends in no backslash that has nothing to escape, and all separators in it
are escaped. -/
def Guards (p : Pattern) : Prop :=
  ∀ w, p.Accepts w → dangles w = false ∧ ∀ a c z, w = a ++ c :: z → c ∈ separators → Escapes a c

namespace Guards

variable {p q : Pattern}

/-- One guarded pattern behind another is guarded. -/
theorem seq (hp : Guards p) (hq : Guards q) : Guards (seq p q) := by
  intro w hw
  obtain ⟨u, v, hu, hv, rfl⟩ := Accepts.seq hw
  obtain ⟨hdangles, hu⟩ := hp u hu
  obtain ⟨hdangles', hv⟩ := hq v hv
  refine ⟨by rw [dangles_append hdangles, hdangles'], fun a c z h hc => ?_⟩
  rcases List.append_eq_append_iff.mp h with ⟨b, rfl, hb⟩ | ⟨b, rfl, hb⟩
  · exact (hv b c z hb hc).append hdangles
  · cases b with
    | nil => simpa using (hv [] c z hb.symm hc).append hdangles
    | cons d b =>
      obtain ⟨rfl, -⟩ := List.cons.inj hb
      exact hu a c b rfl hc

theorem firstOf {ps : List Pattern} (h : ∀ p ∈ ps, Guards p) : Guards (firstOf ps) := by
  intro w hw
  obtain ⟨p, hp, hw⟩ := Accepts.firstOf hw
  exact h p hp w hw

/-- Words of characters that need no escape. -/
theorem of_forall (h : ∀ w, p.Accepts w → ∀ c ∈ w, c ≠ '\\' ∧ c ∉ separators) : Guards p := by
  intro w hw
  refine ⟨dangles_of_not_mem fun hmem => (h w hw _ hmem).1 rfl, fun a c z haz hc => ?_⟩
  exact absurd hc (h w hw c (by simp [haz])).2

/-- A class without backslash and separators is guarded. -/
theorem char {f : Char → Bool} (hf : ∀ c, c = '\\' ∨ c ∈ separators → f c = false) :
    Guards (char f) := by
  refine of_forall fun w hw c hc => ?_
  obtain ⟨d, rfl, hd⟩ := Accepts.char hw
  rw [List.mem_singleton.mp hc]
  refine not_or.mp fun hout => ?_
  rw [hf d hout] at hd
  cases hd

theorem run {f : Char → Bool} (hf : ∀ c, c = '\\' ∨ c ∈ separators → f c = false) :
    Guards (run f) := by
  refine of_forall fun w hw c hc => not_or.mp fun hout => ?_
  have hfc := Accepts.run hw c hc
  rw [hf c hout] at hfc
  cases hfc

theorem word {u : List Char} (hu : (u.any fun c => c ∈ '\\' :: separators) = false) :
    Guards (word u) := by
  refine of_forall fun w hw c hc => ?_
  have hout := List.any_eq_false.mp hu c (Accepts.word hw ▸ hc)
  rwa [decide_eq_true_iff, List.mem_cons, not_or] at hout

theorem just {c : Char} (hc : c ≠ '\\' ∧ c ∉ separators) : Guards (just c) :=
  of_forall fun w hw d hd => by rwa [Accepts.just hw, List.mem_singleton.mp hd] at *

theorem optional (hp : Guards p) : Guards (optional p) := by
  intro w hw
  rcases Accepts.optional hw with rfl | hw
  · exact ⟨rfl, fun a c z h => by simp at h⟩
  · exact hp w hw

/-- A pattern of escapes and characters of names is guarded. -/
theorem escaped (h : ∀ w, p.Accepts w → Escaped isNameChar w) : Guards p := by
  intro w hw
  refine ⟨(h w hw).dangles_eq_false rfl, fun a c z haz hc => ?_⟩
  have hout : ∀ c ∈ separators, isNameChar c = false ∧ c ≠ '\\' ∧ isHex c = false :=
    forall_separators (by decide)
  obtain ⟨hname, hbackslash, hhex⟩ := hout c hc
  exact (haz ▸ h w hw).of_append_cons rfl hname hbackslash hhex

/-- Names are guarded: separators in them are escaped. -/
theorem name : Guards name := escaped fun _ hw => escaped_of_name hw

/-- Characters of a class that no separator is in. -/
theorem outside {f : Char → Bool} (hf : ('\\' :: separators).any f = false) (c : Char)
    (hc : c = '\\' ∨ c ∈ separators) : f c = false :=
  Bool.eq_false_iff.mpr (List.any_eq_false.mp hf c (List.mem_cons.mpr hc))

theorem number : Guards number := by
  have hdigit : ('\\' :: separators).any Char.isDigit = false := by decide
  have hdigits : Guards (many1 (Pattern.char Char.isDigit)) := by
    refine (Guards.char (outside hdigit)).seq ?_
    rw [many_char_eq]
    exact .run (outside hdigit)
  refine .firstOf ?_
  simp only [List.forall_mem_cons]
  exact ⟨(Guards.run (outside hdigit)).seq ((Guards.just (by decide)).seq hdigits), hdigits, nofun⟩

theorem unit : Guards unit := by
  refine .firstOf ?_
  simp only [List.forall_mem_cons]
  refine ⟨?_, .just (by decide), nofun⟩
  exact (Guards.char (outside (by decide))).seq (.run (outside (by decide)))

/-- Most tokens have no separators in them but escaped ones. -/
theorem patternOf {k : Kind}
    (hk : k ∉ [Kind.uriString, .uriBare, .string, .important, .atBraces, .leftBrace,
    .attributeMatch, .greater, .plus, .tilde]) : Guards (patternOf k) := by
  cases k with
  | extend | atImport | atMedia | atPlugin | when | and | or => exact .word (by decide)
  | atName => exact (Guards.just (by decide)).seq .name
  | function => exact Guards.name.seq (.just (by decide))
  | classOrId => exact (Guards.char (outside (by decide))).seq .name
  | hash => exact (Guards.just (by decide)).seq (.escaped fun _ hw => escaped_of_many1 hw)
  | ident => exact .name
  | dimension => exact Guards.number.seq .unit
  | number => exact .number
  | slash => exact (Guards.optional (.just (by decide))).seq (.just (by decide))
  | rightBrace | leftParen | rightParen | leftBracket | rightBracket | semicolon | comma | colon
  | ampersand | less
  | minus | star | equals | dot => exact .just (by decide)
  | _ => exact absurd (by decide) hk

end Guards

/-! ## Backslashes between pieces -/

/-- What a pattern accepts ends in another character than a backslash. -/
def Ends (p : Pattern) : Prop := ∀ w, p.Accepts w → ∃ u c, w = u ++ [c] ∧ c ≠ '\\'

namespace Ends

variable {p q : Pattern}

theorem seq (hq : Ends q) : Ends (seq p q) := by
  intro w hw
  obtain ⟨u, v, -, hv, rfl⟩ := Accepts.seq hw
  obtain ⟨v, c, rfl, hc⟩ := hq v hv
  exact ⟨u ++ v, c, by rw [List.append_assoc], hc⟩

theorem just {c : Char} (hc : c ≠ '\\') : Ends (just c) := fun _ hw => ⟨[], c, Accepts.just hw, hc⟩

/-- A string ends in its quote. -/
theorem string : Ends string := by
  intro w hw
  obtain ⟨p, hp, hw⟩ := Accepts.firstOf hw
  simp only [List.mem_cons, List.not_mem_nil, or_false] at hp
  rcases hp with rfl | rfl
  · exact (seq (seq (just (by decide)))) w hw
  · exact (seq (seq (just (by decide)))) w hw

theorem important : Ends (patternOf .important) := by
  refine seq (seq fun w hw => ?_)
  obtain ⟨cs, n, hn, rfl⟩ := hw
  obtain ⟨hstart, rfl⟩ := wordVia_eq_some.mp hn
  have hmap : (cs.take "important".toList.length).map Char.toLower = "importan".toList ++
      ['t'] := by
    rw [List.map_take]
    exact (List.prefix_iff_eq_take.mp hstart).symm
  obtain ⟨u, v, huv, -, hv⟩ := List.map_eq_append_iff.mp hmap
  obtain ⟨c, rfl, hc⟩ := List.map_eq_singleton_iff.mp hv
  refine ⟨u, c, huv, ?_⟩
  rintro rfl
  exact absurd hc (by decide)

/-- A comment ends in its closing slash. -/
theorem commentBody : Ends commentBody := by
  rintro w ⟨cs, n, hn, rfl⟩
  fun_induction Lexer.commentBody cs generalizing n with
  | case1 | case2 => cases hn
  | case3 cs =>
    cases hn
    exact ⟨['*'], '/', rfl, by decide⟩
  | case4 c d cs _ ih =>
    obtain ⟨m, hm, rfl⟩ := Option.map_eq_some_iff.mp hn
    obtain ⟨u, e, hu, he⟩ := ih m hm
    exact ⟨c :: u, e, by rw [List.take_succ_cons, hu, List.cons_append], he⟩

/-- What ends in another character than a backslash leaves no backslash dangling. -/
theorem dangles (hp : Ends p) {w : List Char} (hw : p.Accepts w) : dangles w = false := by
  obtain ⟨u, c, rfl, hc⟩ := hp w hw
  rw [dangles_append_cons hc]
  rfl

end Ends

/-- No token leaves a backslash dangling. -/
theorem dangles_of_accepts {k : Kind} {w : List Char} (h : (patternOf k).Accepts w) :
    dangles w = false := by
  by_cases hk : k ∈ [Kind.uriString, .uriBare, .string, .important, .atBraces, .leftBrace,
    .attributeMatch, .greater,
      .plus, .tilde]
  · refine Ends.dangles (p := patternOf k) ?_ h
    simp only [List.mem_cons, List.not_mem_nil, or_false] at hk
    rcases hk with rfl | rfl | rfl | rfl | rfl | rfl | rfl | rfl | rfl | rfl
    · exact .seq (.seq (.seq (.seq (.just (by decide)))))
    · exact .seq (.seq (.seq (.seq (.just (by decide)))))
    · exact .string
    · exact .important
    · exact .seq (.seq (.just (by decide)))
    · exact .just (by decide)
    · show Ends (seq (optional _) (just '='))
      exact .seq (.just (by decide))
    all_goals exact .just (by decide)
  · exact (Guards.patternOf hk w h).1

theorem triviaPattern_of_cut? {cs : List Char} {k : TriviaKind} {n : Nat}
    (h : cut? cs = some (.trivia k, n)) :
    triviaPattern k cs = some n := by
  obtain ⟨r, hr, hcut⟩ := List.exists_of_findSome?_eq_some h
  rcases List.mem_append.mp hr with hr | hr
  · obtain ⟨j, -, rfl⟩ := List.mem_map.mp hr
    unfold Rule.cut? at hcut
    split at hcut
    · cases hcut
    · cases hcut
    · rename_i m _ hm
      cases hcut
      exact hm
  · obtain ⟨j, -, rfl⟩ := List.mem_map.mp hr
    unfold Rule.cut? at hcut
    split at hcut
    · cases hcut
    · cases hcut
    · split at hcut
      · cases hcut
      · rename_i kind longer hyields
        split at hcut
        · cases hcut
        · split at hcut <;> cases hcut

section Pieces

variable {q : Piece} {ps : List Piece} {w u v : List Char}

/-- A line comment goes up to the end of its line. -/
theorem isLineEnd_of_drop {cs : List Char} {n : Nat} (h : triviaPattern .lineComment cs = some n)
    {c : Char} (hdrop : cs.drop n = c :: v) : isLineEnd c = true := by
  obtain ⟨i, j, -, hj, rfl⟩ := seq_eq_some.mp (lineComment_eq ▸ h)
  cases hj
  rw [← List.drop_drop, drop_length_takeWhile] at hdrop
  have hstop := List.head?_dropWhile_not (fun c => !isLineEnd c) (cs.drop i)
  rw [hdrop] at hstop
  simpa using hstop

theorem text_eq_take {cs : List Char} (h : pieces cs = q :: ps) :
    q.text = cs.take q.text.length := by
  have hcs : cs = q.text ++ textOf ps := by rw [← textOf_cons, ← h, textOf_pieces]
  rw [hcs, List.take_left]

/-- The first piece leaves no backslash dangling, unless it is a stray stretch or a line comment. -/
theorem dangles_first {cs : List Char} (h : pieces cs = q :: ps) (hcut : q.cut ≠ none)
    (hline : q.cut ≠ some (.trivia .lineComment)) : dangles q.text = false := by
  obtain ⟨x, hx⟩ := Option.ne_none_iff_exists'.mp hcut
  have hcut := cut?_of_pieces h hx
  have htext := text_eq_take h
  rcases x with k | k
  · exact dangles_of_accepts ⟨cs, _, patternOf_of_cut? hcut, htext⟩
  · have hmatch := triviaPattern_of_cut? hcut
    cases k with
    | blank =>
      have hblanks := Accepts.many1_char (f := isBlank) ⟨cs, _, hmatch, htext⟩
      exact dangles_of_not_mem fun hmem => ne_backslash_of_isBlank (hblanks.2 _ hmem) rfl
    | blockComment =>
      exact (Ends.seq .commentBody).dangles (p := triviaPattern .blockComment)
        ⟨cs, _, hmatch, htext⟩
    | lineComment => exact absurd hx hline

/-- Behind a line comment comes a line end, so that no piece makes a difference to what is escaped
behind it. -/
theorem dangles_first_append (h : pieces (q.text ++ w) = q :: ps) (hcut : q.cut ≠ none)
    (hw : w = u ++ v) (hv : u = [] → ∃ c z, v = c :: z ∧ isLineEnd c = false) :
    dangles (q.text ++ u) = dangles u := by
  by_cases hline : q.cut = some (.trivia .lineComment)
  · have hmatch := triviaPattern_of_cut? (cut?_of_pieces h hline)
    have hdrop : (q.text ++ w).drop q.text.length = u ++ v := hw ▸ List.drop_left
    cases u with
    | nil =>
      obtain ⟨c, z, rfl, hc⟩ := hv rfl
      rw [isLineEnd_of_drop hmatch hdrop] at hc
      cases hc
    | cons c u =>
      have hend := isLineEnd_of_drop hmatch hdrop
      have hne : c ≠ '\\' := by
        rintro rfl
        exact absurd hend (by decide)
      rw [dangles_append_cons hne, dangles_cons hne]
  · exact dangles_append (dangles_first h hcut hline) u

/-- Known pieces that stay as they are before a character leave no backslash dangling before it. -/
theorem dangles_before {c : Char} (h : pieces (textOf ps ++ c :: w) = ps ++ pieces (c :: w))
    (hknown : ∀ q ∈ ps, q.cut ≠ none) (hc : isLineEnd c = false) : dangles (textOf ps) = false := by
  induction ps with
  | nil => rfl
  | cons q ps ih =>
    obtain ⟨hq, hknown⟩ := List.forall_mem_cons.mp hknown
    rw [textOf_cons, List.append_assoc] at h
    have hsplit : pieces (q.text ++ (textOf ps ++ c :: w)) = [q] ++ (ps ++ pieces (c :: w)) := h
    have hrest := (pieces_append hsplit (by simp)).2
    rw [textOf_cons, dangles_first_append h hq rfl fun _ => ⟨c, w, rfl, hc⟩]
    exact ih hrest hknown

/-- Trivia come before all tokens. -/
theorem cut?_of_trivia (before : List TriviaKind) {after : List TriviaKind} {cs : List Char}
    {k : TriviaKind} {n : Nat} (hk : [.blank, .blockComment, .lineComment] = before ++ k :: after)
    (h : triviaPattern k cs = some (n + 1)) (hbefore : ∀ j ∈ before, triviaPattern j cs = none) :
    cut? cs = some (.trivia k, n + 1) := by
  refine List.findSome?_eq_some_iff.mpr ⟨before.map Rule.ofTrivia, Rule.ofTrivia k,
    after.map Rule.ofTrivia ++ Kind.all.map Rule.ofKind, ?_, ?_, ?_⟩
  · rw [rules, hk, List.map_append, List.map_cons, List.append_assoc, List.cons_append]
  · simp only [Rule.cut?, Rule.ofTrivia, h]
  · rw [List.forall_mem_map]
    refine fun j hj => Rule.cut?_eq_none_iff.mpr fun m hm => ?_
    cases (hbefore j hj).symm.trans hm

/-- No token starts with a blank. -/
theorem isBlank_of_token {c : Char} {cs : List Char} {k : Kind} {n : Nat}
    (h : cut? (c :: cs) = some (.token k, n)) : isBlank c = false := by
  by_contra hc
  rw [Bool.not_eq_false] at hc
  have hmatch : triviaPattern .blank (c :: cs) = some ((cs.takeWhile isBlank).length + 1) := by
    rw [blank_eq_some, List.takeWhile_cons_of_pos hc]
    exact ⟨Nat.succ_ne_zero _, rfl⟩
  rw [cut?_of_trivia [] rfl hmatch nofun] at h
  cases h

end Pieces

end Lexer

end LessCss
