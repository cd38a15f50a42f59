import LessCss.Proofs.Lexing.Locality
import LessCss.Proofs.Lexing.Spelling

/-!
# Cutting a text where it was cut

The patterns of the lexer do not look ahead (`Lexer.patternOf_local`, `Lexer.triviaPattern_local`),
and hence neither do its rules (`Lexer.cut?_of_append`).  So the pieces of a text up to the end of
one of them are the pieces of the text up to there, and the others are those of the rest
(`Lexer.pieces_append`).

Two patterns would look ahead, were it not for what they are followed by.  A name may stop at half
of an escape, and goes on when the other half comes; but it is put together only with a bracket.
And a number stops before a point that no digit follows; but it is put together only with a unit.
-/

namespace LessCss

namespace Lexer

open Pattern

/-! ## Escapes and names -/

/-- An escape does not look ahead, except for more digits and a blank. -/
theorem escape_local : escape.Local := by
  refine firstOf_pair_local (seq_local_of_firm (just_local _) (just_fixed _).firm ?_ rfl) ?_
  · exact seq_local_of_total (runUpTo_local _ _) (optional_local (char_local _)) nofun
  · exact seq_local_of_firm (just_local _) (just_fixed _).firm (char_local _) rfl

theorem escape_of_lineEnd {c : Char} (hc : isLineEnd c = true) (w : List Char) :
    escape ('\\' :: c :: w) = none := by
  have hhex : isHex c = false := by
    simp only [isLineEnd, Bool.or_eq_true, beq_iff_eq] at hc
    rcases hc with (rfl | rfl) | rfl <;> rfl
  simp [escape, firstOf, concat, seq, just, char, runUpTo, hc, hhex]

/-- Whether digits follow the backslash is seen from the next character. -/
theorem escape_firm : escape.Firm := by
  have hdigits :=
    seq_firm (just_fixed '\\').firm (seq_firm (runUpTo_firm 6 isHex) (optional_char_firm isBlank))
  have hother := seq_firm (just_fixed '\\').firm (char_fixed fun c => !isHex c && !isLineEnd c).firm
  refine (firstOf_pair_staysBefore hdigits.staysBefore hother.staysBefore
    fun a b n c v _ hn _ _ => ?_).firm
  obtain ⟨i, j, hi, hj, rfl⟩ := seq_eq_some.mp hn
  obtain ⟨v, rfl, rfl⟩ := just_eq_some.mp hi
  obtain ⟨d, v, rfl, hd, rfl⟩ := char_eq_some.mp hj
  have hhex : isHex d = false := by
    simp only [Bool.and_eq_true, Bool.not_eq_true'] at hd
    exact hd.1
  simp [seq, just, char, runUpTo, hhex]

/-- A character of a class, or an escape. -/
def orEscape (f : Char → Bool) : Pattern := firstOf [char f, escape]

theorem orEscape_local (f : Char → Bool) : (orEscape f).Local :=
  firstOf_pair_local (char_local f) escape_local

theorem orEscape_firm (f : Char → Bool) : (orEscape f).Firm := by
  refine (firstOf_char_staysBefore ?_).firm
  rw [firstOf_singleton]
  exact escape_firm.staysBefore

theorem nameChar_local : nameChar.Local := orEscape_local isNameChar

theorem nameChar_firm : nameChar.Firm := orEscape_firm isNameChar

/-- A name behind two dashes. -/
def dashedName : Pattern := seq (just '-') (seq (just '-') (many1 nameChar))

/-- A name of the other form. -/
def plainName : Pattern := seq (optional (just '-')) (seq (orEscape isNameStart) (many nameChar))

theorem name_eq : name = firstOf [dashedName, plainName] := rfl

/-- A name does not look ahead, except for more of the name. -/
theorem name_local : name.Local := by
  rw [name_eq]
  refine firstOf_pair_local ?_ ?_
  · refine seq_local_of_firm (just_local _) (just_fixed _).firm ?_ rfl
    exact seq_local_of_firm (just_local _) (just_fixed _).firm (many1_local nameChar_local) rfl
  · refine seq_local_of_firm (optional_local (just_local _)) (optional_char_firm _) ?_ rfl
    exact seq_local_of_total (orEscape_local _) (many_local nameChar_local) (many_ne_none _)

/-- The first two characters tell the forms of names apart. -/
theorem dashedName_of_plainName {a : List Char} {n : Nat} (ha : plainName a = some n)
    (b : List Char) :
    dashedName (a ++ b) = none := by
  obtain ⟨i, j, hi, hj, _⟩ := seq_eq_some.mp (plainName.eq_def ▸ ha)
  obtain ⟨k, _, hk, _, _⟩ := seq_eq_some.mp hj
  cases a with
  | nil => cases hi; cases hk
  | cons c a =>
    by_cases hc : c = '-'
    · subst hc
      cases hi
      cases a with
      | nil => cases hk
      | cons d a =>
        have hd : d ≠ '-' := by
          rintro rfl
          cases hk
        simp [dashedName, seq, just, char, hd]
    · simp [dashedName, seq, just, char, hc]

/-- A name stays the same before a character with which it cannot go on. -/
theorem name_staysBefore {C : Char → Prop} (hC : ∀ c, C c → ∀ w, nameChar (c :: w) = none) :
    name.StaysBefore C := by
  have hmany := many_staysBefore nameChar_local nameChar_firm hC
  have hdashed : dashedName.StaysBefore C := by
    refine seq_staysBefore (just_fixed _).firm (seq_staysBefore (just_fixed _).firm ?_)
    exact seq_staysBefore nameChar_firm hmany
  have hplain : plainName.StaysBefore C :=
    seq_staysBefore (optional_char_firm _) (seq_staysBefore (orEscape_firm _) hmany)
  rw [name_eq]
  exact firstOf_pair_staysBefore hdashed hplain fun a b n c v _ ha _ _ =>
    dashedName_of_plainName ha b

/-- A name and a character that closes it. -/
theorem seq_name_just_local {d : Char} (hd : ∀ w, nameChar (d :: w) = none) :
    (seq name (just d)).Local := by
  refine seq_local_before name_local (name_staysBefore ?_) (just_local d) (just_starts d)
  rintro c rfl
  exact hd

/-! ## Strings and addresses -/

theorem continuation_local : continuation.Local := by
  refine seq_local_of_firm (just_local _) (just_fixed _).firm ?_ rfl
  exact firstOf_pair_local (word_local _) (char_local _)

/-- Whether a line end is one of two characters is seen from these. -/
theorem continuation_firm : continuation.Firm := by
  refine seq_firm (just_fixed _).firm ?_
  refine (firstOf_pair_staysBefore (word_fixed _).firm.staysBefore (char_fixed _).firm.staysBefore
    fun a b n c v ha hn hdrop _ => ?_).firm
  obtain ⟨d, v, rfl, _, rfl⟩ := char_eq_some.mp hn
  rw [List.drop_succ_cons, List.drop_zero] at hdrop
  subst hdrop
  simpa [word] using ha

/-- A character of a string, plain or escaped, or a line end that does not count. -/
def stringChar (quote : Char) : Pattern :=
  firstOf [char fun c => !isLineEnd c && c != quote && c != '\\', escape, continuation]

theorem stringChar_local (quote : Char) : (stringChar quote).Local :=
  firstOf_local (by simp [char_local, escape_local, continuation_local])

theorem stringChar_firm (quote : Char) : (stringChar quote).Firm := by
  refine (firstOf_char_staysBefore (firstOf_pair_staysBefore escape_firm.staysBefore
    continuation_firm.staysBefore fun a b n c v _ hn _ _ => ?_)).firm
  obtain ⟨i, j, hi, hj, rfl⟩ := seq_eq_some.mp hn
  obtain ⟨v, rfl, rfl⟩ := just_eq_some.mp hi
  -- either way the string goes on behind a line end, which is not escaped
  have hend : ∃ d w, v = d :: w ∧ isLineEnd d = true := by
    rcases firstOf_cons_eq_some.mp hj with hj | ⟨_, hj⟩
    · rw [word_eq, wordVia_eq_some] at hj
      obtain ⟨w, hw⟩ := hj.1
      exact ⟨'\r', _, by simpa using hw.symm, rfl⟩
    · rw [firstOf_singleton] at hj
      obtain ⟨d, w, hv, hd, _⟩ := char_eq_some.mp hj
      exact ⟨d, w, hv, hd⟩
  obtain ⟨d, w, rfl, hd⟩ := hend
  exact escape_of_lineEnd hd (w ++ b)

section StringIn

variable {quote : Char} (hquote : ∀ w, stringChar quote (quote :: w) = none)

include hquote

/-- A string that goes up to its quote is not changed by what follows. -/
theorem many_stringChar_staysBefore : (many (stringChar quote)).StaysBefore (· = quote) :=
  many_staysBefore (stringChar_local quote) (stringChar_firm quote) (by rintro c rfl; exact hquote)

theorem stringIn_local : (stringIn quote).Local := by
  refine seq_local_of_firm (just_local _) (just_fixed _).firm ?_ rfl
  exact seq_local_before (many_local (stringChar_local quote)) (many_stringChar_staysBefore hquote)
    (just_local _) (just_starts _)

/-- A string that ends before any character is not changed by what follows. -/
theorem stringIn_firm : (stringIn quote).Firm := by
  refine seq_firm (just_fixed _).firm ?_
  exact seq_firm_before (many_local (stringChar_local quote)) (many_stringChar_staysBefore hquote)
    (just_fixed _).firm (just_starts _)

end StringIn

theorem string_local : string.Local :=
  firstOf_pair_local (stringIn_local fun _ => rfl) (stringIn_local fun _ => rfl)

/-- The first character tells in which quotes a string is. -/
theorem string_firm : string.Firm := by
  refine (firstOf_pair_staysBefore (stringIn_firm fun _ => rfl).staysBefore
    (stringIn_firm fun _ => rfl).staysBefore fun a b n c v _ hn _ _ => ?_).firm
  obtain ⟨i, j, hi, _, _⟩ := seq_eq_some.mp hn
  obtain ⟨v, rfl, _⟩ := just_eq_some.mp hi
  rfl

theorem uriString_local : (patternOf .uriString).Local := by
  refine seq_local_of_firm (word_local _) (word_fixed _).firm ?_ rfl
  refine seq_local_of_firm (run_local _) (run_firm _) ?_ rfl
  refine seq_local_of_firm string_local string_firm ?_ rfl
  exact seq_local_of_firm (run_local _) (run_firm _) (just_local _) rfl

/-- The blanks and the parenthesis that end an address. -/
def uriClose : Pattern := seq blanks (just ')')

theorem uriClose_local : uriClose.Local :=
  seq_local_of_firm (run_local _) (run_firm _) (just_local _) rfl

theorem uriClose_starts : uriClose.Starts fun c => isBlank c = true ∨ c = ')' := by
  intro a n ha
  obtain ⟨i, j, hi, hj, _⟩ := seq_eq_some.mp (uriClose.eq_def ▸ ha)
  cases hi
  cases a with
  | nil => cases hj
  | cons c v =>
    refine ⟨c, v, rfl, ?_⟩
    by_cases hc : isBlank c = true
    · exact .inl hc
    · rw [List.takeWhile_cons_of_neg hc, List.length_nil, List.drop_zero] at hj
      obtain ⟨w, hw, _⟩ := just_eq_some.mp hj
      exact .inr (List.cons.inj hw).1

/-- With what ends an address the address cannot go on. -/
theorem uriChar_of_close {c : Char} (hc : isBlank c = true ∨ c = ')') (w : List Char) :
    orEscape isUriChar (c :: w) = none := by
  simp only [isBlank, isLineEnd, Bool.or_eq_true, beq_iff_eq] at hc
  rcases hc with ((rfl | rfl) | (rfl | rfl) | rfl) | rfl <;> rfl

theorem uriBare_local : (patternOf .uriBare).Local := by
  have hmany := many_staysBefore (orEscape_local isUriChar) (orEscape_firm _) fun c hc =>
    uriChar_of_close hc
  refine seq_local_of_firm (word_local _) (word_fixed _).firm ?_ rfl
  refine seq_local_of_firm (run_local _) (run_firm _) ?_ rfl
  exact seq_local_before (many_local (orEscape_local _)) hmany uriClose_local uriClose_starts

/-! ## Numbers and comments -/

theorem many_char_eq (f : Char → Bool) : many (char f) = run f := by
  funext cs
  exact congrArg some (countRepeats_char f cs)

theorem many1_char_firm (f : Char → Bool) : (many1 (char f)).Firm := by
  refine seq_firm (char_fixed f).firm ?_
  rw [many_char_eq]
  exact run_firm f

/-- Digits with a point among or before them. -/
def fraction : Pattern := seq (run Char.isDigit) (seq (just '.') (many1 (char Char.isDigit)))

/-- A number does not look ahead, except for more digits. -/
theorem number_local : number.Local := by
  have hdigits : (many1 (char Char.isDigit)).Local := many1_local (char_local _)
  have hfraction : fraction.Local := by
    refine seq_local_of_firm (run_local _) (run_firm _) ?_ rfl
    exact seq_local_of_firm (just_local _) (just_fixed _).firm hdigits rfl
  exact firstOf_pair_local hfraction hdigits

/-- Digits before another character than the point are no fraction, whatever follows. -/
theorem fraction_of_digits {a : List Char} {n : Nat} {c : Char} {v : List Char}
    (ha : many1 (char Char.isDigit) a = some n) (hdrop : a.drop n = c :: v) (hc : c ≠ '.')
    (b : List Char) :
    fraction (a ++ b) = none := by
  obtain ⟨i, j, hi, hj, rfl⟩ := seq_eq_some.mp ha
  obtain ⟨d, w, rfl, hd, rfl⟩ := char_eq_some.mp hi
  rw [many_char_eq] at hj
  have hrun : run Char.isDigit (d :: w) = some (1 + j) := by
    rw [run, Option.some.injEq] at hj ⊢
    rw [List.takeWhile_cons_of_pos hd, List.length_cons, ← hj]
    exact Nat.add_comm _ _
  have hlt := lt_length_of_drop hdrop
  have hrun' := run_firm _ _ b _ hrun hlt
  have hpoint : just '.' (((d :: w) ++ b).drop (1 + j)) = none := by
    rw [List.drop_append_of_le_length (Nat.le_of_lt hlt), hdrop]
    simp [just, char, hc]
  simp only [fraction, seq, hrun', hpoint]

/-- A number that ends before something else than a point is not changed by what follows. -/
theorem number_staysBefore : number.StaysBefore (· ≠ '.') := by
  have hfraction : fraction.Firm :=
    seq_firm (run_firm _) (seq_firm (just_fixed _).firm (many1_char_firm _))
  exact firstOf_pair_staysBefore hfraction.staysBefore (many1_char_firm _).staysBefore
    fun a b n c v _ ha hdrop hc => fraction_of_digits ha hdrop hc b

theorem unit_local : unit.Local :=
  firstOf_pair_local (seq_local_of_total (char_local _) (run_local _) nofun) (just_local _)

theorem unit_starts : unit.Starts (· ≠ '.') := by
  intro a n ha
  cases a with
  | nil => cases ha
  | cons c v =>
    refine ⟨c, v, rfl, ?_⟩
    rintro rfl
    cases ha

/-- Where a comment is not closed its body goes on by one character. -/
theorem commentBody_cons_cons {c d : Char} (h : ¬ (c = '*' ∧ d = '/')) (cs : List Char) :
    commentBody (c :: d :: cs) = (commentBody (d :: cs)).map (· + 1) :=
  commentBody.eq_4 c d cs fun hc hd => h ⟨hc, hd⟩

theorem two_le_of_commentBody {a : List Char} {n : Nat} (ha : commentBody a = some n) : 2 ≤ n := by
  fun_induction commentBody a generalizing n with
  | case1 | case2 => cases ha
  | case3 => cases ha; exact Nat.le_refl 2
  | case4 c d cs _ ih =>
    obtain ⟨m, hm, rfl⟩ := Option.map_eq_some_iff.mp ha
    exact Nat.le_succ_of_le (ih hm)

/-- The body of a comment ends at the first closing, whatever follows. -/
theorem commentBody_fixed : commentBody.Fixed := by
  intro a b n ha
  fun_induction commentBody a generalizing n with
  | case1 | case2 => cases ha
  | case3 => exact ha
  | case4 c d cs hopen ih =>
    obtain ⟨m, hm, rfl⟩ := Option.map_eq_some_iff.mp ha
    rw [List.cons_append, List.cons_append, commentBody_cons_cons fun h => hopen h.1 h.2]
    exact Option.map_eq_some_iff.mpr ⟨m, ih m hm, rfl⟩

theorem commentBody_local : commentBody.Local := by
  refine commentBody_fixed.local ?_ ?_
  · intro a n ha
    fun_induction commentBody a generalizing n with
    | case1 | case2 => cases ha
    | case3 => cases ha; simp
    | case4 c d cs _ ih =>
      obtain ⟨m, hm, rfl⟩ := Option.map_eq_some_iff.mp ha
      exact Nat.succ_le_succ (ih m hm)
  · intro a b n hab hn
    have htwo := two_le_of_commentBody hab
    fun_induction commentBody a generalizing n with
    | case1 => simp at hn; omega
    | case2 c => simp at hn; omega
    | case3 => exact hab
    | case4 c d cs hopen ih =>
      rw [List.cons_append, List.cons_append, commentBody_cons_cons fun h => hopen h.1 h.2] at hab
      obtain ⟨m, hm, rfl⟩ := Option.map_eq_some_iff.mp hab
      refine Option.map_eq_some_iff.mpr ⟨m, ih m hm ?_ (two_le_of_commentBody hm), rfl⟩
      exact Nat.le_of_succ_le_succ hn

/-! ## Rules -/

/-- No pattern of a kind looks ahead. -/
theorem patternOf_local (k : Kind) : (patternOf k).Local := by
  cases k with
  | uriString => exact uriString_local
  | uriBare => exact uriBare_local
  | string => exact string_local
  | important =>
    refine seq_local_of_firm (just_local _) (just_fixed _).firm ?_ rfl
    exact seq_local_of_firm (run_local _) (run_firm _) (anyCase_local _) rfl
  | extend | atImport | atMedia | atPlugin | when | and | or => exact word_local _
  | atBraces =>
    exact seq_local_of_firm (word_local _) (word_fixed _).firm
      (seq_name_just_local fun _ => rfl) rfl
  | atName => exact seq_local_of_firm (just_local _) (just_fixed _).firm name_local rfl
  | function => exact seq_name_just_local fun _ => rfl
  | classOrId => exact seq_local_of_firm (char_local _) (char_fixed _).firm name_local rfl
  | hash =>
    exact seq_local_of_firm (just_local _) (just_fixed _).firm (many1_local nameChar_local) rfl
  | ident => exact name_local
  | dimension => exact seq_local_before number_local number_staysBefore unit_local unit_starts
  | number => exact number_local
  | attributeMatch | slash =>
    exact seq_local_of_firm (optional_local (char_local _)) (optional_char_firm _)
      (just_local _) rfl
  | leftBrace | rightBrace | leftParen | rightParen | leftBracket | rightBracket | semicolon
  | comma | colon
  | ampersand | greater | less | plus | minus | star | tilde | equals | dot => exact just_local _

theorem triviaPattern_local (k : TriviaKind) : (triviaPattern k).Local := by
  cases k with
  | blank => exact many1_local (char_local _)
  | blockComment => exact seq_local_of_firm (word_local _) (word_fixed _).firm commentBody_local rfl
  | lineComment => exact seq_local_of_total (word_local _) (run_local _) nofun

/-- The patterns of a rule do not look ahead. -/
structure Rule.Local (r : Rule) : Prop where
  pattern : r.pattern.Local
  yieldsTo : ∀ kind longer, r.yieldsTo = some (kind, longer) → longer.Local

/-- No rule of the lexer looks ahead. -/
theorem rules_local : ∀ r ∈ rules, r.Local := by
  intro r hr
  rcases List.mem_append.mp hr with hr | hr
  · obtain ⟨k, _, rfl⟩ := List.mem_map.mp hr
    exact ⟨triviaPattern_local k, nofun⟩
  · obtain ⟨k, _, rfl⟩ := List.mem_map.mp hr
    refine ⟨patternOf_local k, fun kind longer h => ?_⟩
    obtain ⟨k', _, hk'⟩ := Option.map_eq_some_iff.mp h
    cases hk'
    exact patternOf_local _

theorem Rule.cut?_eq_none_iff {r : Rule} {cs : List Char} :
    r.cut? cs = none ↔ ∀ n, r.pattern cs ≠ some (n + 1) := by
  constructor
  · intro h n hn
    simp only [Rule.cut?, hn] at h
    split at h
    · cases h
    · split at h
      · cases h
      · split at h <;> cases h
  · intro h
    unfold Rule.cut?
    split
    · rfl
    · rfl
    · rename_i m hm hmatch
      obtain ⟨k, rfl⟩ := Nat.exists_eq_succ_of_ne_zero hm
      exact absurd hmatch (h k)

section Append

variable {r : Rule} {a b : List Char} {x : Cut} {n : Nat}

/-- What a rule cuts off a text it cuts off the first part, if it lies in there. -/
theorem Rule.Local.cut?_of_append (hr : r.Local) (h : r.cut? (a ++ b) = some (x, n))
    (hn : n ≤ a.length) :
    r.cut? a = some (x, n) := by
  unfold Rule.cut? at h
  split at h
  · cases h
  · cases h
  · rename_i m hm hmatch
    obtain ⟨m, rfl⟩ := Nat.exists_eq_succ_of_ne_zero hm
    split at h
    · rename_i hyields
      cases h
      simp only [Rule.cut?, hr.pattern.shrinks hmatch hn, hyields]
    · rename_i kind longer hyields
      have hlocal := hr.yieldsTo kind longer hyields
      split at h
      · rename_i hlonger
        cases h
        simp only [Rule.cut?, hr.pattern.shrinks hmatch hn, hyields, hlocal.none_of_append hlonger]
      · rename_i k hlonger
        split at h
        · rename_i hk
          cases h
          simp only [Rule.cut?, hr.pattern.shrinks hmatch (by omega), hyields,
            hlocal.shrinks hlonger hn, if_pos hk]
        · rename_i hk
          cases h
          simp only [Rule.cut?, hr.pattern.shrinks hmatch hn, hyields,
            hlocal.shrinks hlonger (by omega), if_neg hk]

theorem Rule.Local.cut?_eq_none_of_append (hr : r.Local) (h : r.cut? (a ++ b) = none) :
    r.cut? a = none := by
  rw [Rule.cut?_eq_none_iff] at *
  intro n hn
  obtain ⟨m, hm, hle⟩ := hr.pattern.grows b hn
  obtain ⟨m, rfl⟩ : ∃ m', m = m' + 1 := ⟨m - 1, by omega⟩
  exact h m hm

theorem Rule.Local.le_of_cut? (hr : r.Local) (h : r.cut? a = some (x, n)) : n ≤ a.length := by
  unfold Rule.cut? at h
  split at h
  · cases h
  · cases h
  · rename_i m hm hmatch
    have hle := hr.pattern.bounded hmatch
    split at h
    · cases h; exact hle
    · rename_i kind longer hyields
      split at h
      · cases h; exact hle
      · rename_i k hlonger
        have hle' := (hr.yieldsTo kind longer hyields).bounded hlonger
        split at h <;> cases h
        · exact hle'
        · exact hle

/-- What is cut off within the first part of a text is cut off there. -/
theorem cut?_of_append (h : cut? (a ++ b) = some (x, n)) (hn : n ≤ a.length) :
    cut? a = some (x, n) := by
  obtain ⟨before, r, after, hrules, hr, hbefore⟩ := List.findSome?_eq_some_iff.mp h
  have hlocal : ∀ r' ∈ before ++ r :: after, r'.Local := hrules ▸ rules_local
  obtain ⟨hlocal, hlocal'⟩ := List.forall_mem_append.mp hlocal
  refine List.findSome?_eq_some_iff.mpr ⟨before, r, after, hrules, ?_, fun r' hr' => ?_⟩
  · exact (hlocal' r List.mem_cons_self).cut?_of_append hr hn
  · exact (hlocal r' hr').cut?_eq_none_of_append (hbefore r' hr')

/-- Where nothing is cut off a text, nothing is cut off its first part. -/
theorem cut?_eq_none_of_append (h : cut? (a ++ b) = none) : cut? a = none := by
  rw [cut?, List.findSome?_eq_none_iff] at *
  exact fun r hr => (rules_local r hr).cut?_eq_none_of_append (h r hr)

theorem le_of_cut? (h : cut? a = some (x, n)) : n ≤ a.length := by
  obtain ⟨r, hr, hcut⟩ := List.exists_of_findSome?_eq_some h
  exact (rules_local r hr).le_of_cut? hcut

end Append

/-! ## Pieces -/

/-- What is cut off first is the first piece, and the others are those of what is left. -/
theorem pieces_of_cut? {c : Char} {cs : List Char} {x : Cut} {n : Nat}
    (h : cut? (c :: cs) = some (x, n + 1)) :
    pieces (c :: cs) = ⟨some x, c :: cs.take n⟩ :: pieces (cs.drop n) := by
  rw [pieces, h]

/-- Where nothing matches, the first character joins the stray stretch before the next piece. -/
theorem pieces_of_no_cut {c : Char} {cs : List Char} (h : cut? (c :: cs) = none) :
    pieces (c :: cs) = skip c (pieces cs) := by
  rw [pieces, h]

/-- Where pieces are divided with a skipped character in front of them, they can be divided without
it. -/
theorem exists_append_of_skip {c : Char} {rs ps qs : List Piece} {a : List Char}
    (h : skip c rs = ps ++ qs) (hps : textOf ps = c :: a) :
    ∃ ps', rs = ps' ++ qs ∧ textOf ps' = a ∧ ps = skip c ps' := by
  cases ps with
  | nil => cases hps
  | cons p ps =>
    unfold skip at h
    split at h
    · rename_i text rs
      cases h
      refine ⟨⟨none, text⟩ :: ps, rfl, ?_, rfl⟩
      exact (List.cons.inj hps).2
    · rename_i hrs
      cases h
      refine ⟨ps, rfl, (List.cons.inj hps).2, ?_⟩
      unfold skip
      split
      · exact absurd rfl (hrs _ _)
      · rfl

/-- **Where the pieces of a text are divided, the parts have these pieces.** -/
theorem pieces_append {a b : List Char} {ps qs : List Piece} (h : pieces (a ++ b) = ps ++ qs)
    (hps : textOf ps = a) : pieces a = ps ∧ pieces b = qs := by
  induction hlength : a.length using Nat.strong_induction_on generalizing a ps with
  | _ length ih =>
    subst hlength
    cases a with
    | nil =>
      cases ps with
      | nil => exact ⟨by rw [pieces], h⟩
      | cons p ps =>
        have hp : p.text ≠ [] := text_ne_nil p (by rw [h]; exact List.mem_cons_self)
        exact absurd (List.append_eq_nil_iff.mp hps).1 hp
    | cons c a =>
      rw [List.cons_append] at h
      cases hcut : cut? (c :: (a ++ b)) with
      | none =>
        rw [pieces_of_no_cut hcut] at h
        obtain ⟨ps', hrest, htext, rfl⟩ := exists_append_of_skip h hps
        obtain ⟨ha, hb⟩ := ih a.length (Nat.lt_succ_self _) hrest htext rfl
        rw [pieces_of_no_cut (cut?_eq_none_of_append (b := b) hcut), ha]
        exact ⟨rfl, hb⟩
      | some cut =>
        obtain ⟨x, n⟩ := cut
        have hpos := cut?_pos hcut
        have hle := le_of_cut? hcut
        obtain ⟨n, rfl⟩ : ∃ n', n = n' + 1 := ⟨n - 1, by omega⟩
        rw [pieces_of_cut? hcut] at h
        cases ps with
        | nil => cases hps
        | cons p ps =>
          obtain ⟨rfl, hrest⟩ := List.cons.inj h
          have htext : (a ++ b).take n ++ textOf ps = a := (List.cons.inj hps).2
          -- the first piece lies within the first part
          have hn : n ≤ a.length := by
            rw [List.length_cons] at hle
            have hlength := congrArg List.length htext
            rw [List.length_append, List.length_take] at hlength
            omega
          rw [List.take_append_of_le_length hn] at htext ⊢
          have hdrop : textOf ps = a.drop n :=
            List.append_cancel_left (htext.trans (List.take_append_drop n a).symm)
          rw [List.drop_append_of_le_length hn] at hrest
          have hlt : (a.drop n).length < (c :: a).length := by
            rw [List.length_drop, List.length_cons]
            omega
          obtain ⟨ha, hb⟩ := ih (a.drop n).length hlt hrest hdrop rfl
          rw [pieces_of_cut? (cut?_of_append (b := b) hcut (Nat.succ_le_succ hn)), ha]
          exact ⟨rfl, hb⟩

end Lexer

end LessCss
