import Mathlib.Data.List.TakeWhile
import LessCss.Dimension
import LessCss.Proofs.Lexing

/-!
# How tokens are spelled

The text of a token is one that the pattern of its kind accepts (`Token.Spelled`), also where a
keyword yielded to a longer name.  Two facts follow on which the reading of values rests: the text
of a number token reads as a number (`Token.Spelled.read_number`), and that of a sign is the symbol
of an operator.
-/

namespace LessCss

/-! ## What patterns accept -/

namespace Pattern

/-- A pattern accepts a word if it matches just this word at the start of some text. -/
def Accepts (p : Pattern) (w : List Char) : Prop := ∃ cs n, p cs = some n ∧ w = cs.take n

variable {p q : Pattern} {f : Char → Bool} {w : List Char}

theorem Accepts.char (h : (char f).Accepts w) : ∃ c, w = [c] ∧ f c = true := by
  obtain ⟨cs, n, hn, rfl⟩ := h
  cases cs with
  | nil => cases hn
  | cons c cs =>
    simp only [Pattern.char] at hn
    split at hn
    · rename_i hc
      cases hn
      exact ⟨c, rfl, hc⟩
    · cases hn

theorem Accepts.just {c : Char} (h : (just c).Accepts w) : w = [c] := by
  obtain ⟨d, rfl, hd⟩ := Accepts.char h
  rw [eq_of_beq hd]

/-- A word of two patterns, one behind the other, is one of the first and one of the second. -/
theorem Accepts.seq (h : (seq p q).Accepts w) : ∃ u v, p.Accepts u ∧ q.Accepts v ∧ w = u ++ v := by
  obtain ⟨cs, n, hn, rfl⟩ := h
  unfold Pattern.seq at hn
  split at hn
  · cases hn
  · rename_i a ha
    split at hn
    · cases hn
    · rename_i b hb
      cases hn
      exact ⟨_, _, ⟨cs, a, ha, rfl⟩, ⟨cs.drop a, b, hb, rfl⟩, List.take_add⟩

/-- A word of some patterns is one of one of them. -/
theorem Accepts.firstOf {ps : List Pattern} (h : (firstOf ps).Accepts w) :
    ∃ p ∈ ps, p.Accepts w := by
  obtain ⟨cs, n, hn, rfl⟩ := h
  induction ps with
  | nil => cases hn
  | cons p ps ih =>
    rcases Option.or_eq_some_iff.mp hn with hp | ⟨-, hps⟩
    · exact ⟨p, List.mem_cons_self, cs, n, hp, rfl⟩
    · obtain ⟨q, hq, haccepts⟩ := ih hps
      exact ⟨q, List.mem_cons_of_mem _ hq, haccepts⟩

theorem Accepts.optional (h : (optional p).Accepts w) : w = [] ∨ p.Accepts w := by
  obtain ⟨cs, n, hn, rfl⟩ := h
  cases hp : p cs with
  | none =>
    simp only [Pattern.optional, hp, Option.getD_none, Option.some.injEq] at hn
    exact .inl (by rw [← hn, List.take_zero])
  | some m =>
    simp only [Pattern.optional, hp, Option.getD_some, Option.some.injEq] at hn
    exact .inr ⟨cs, n, by rw [hp, hn], rfl⟩

theorem take_length_takeWhile (f : Char → Bool) (cs : List Char) :
    cs.take (cs.takeWhile f).length = cs.takeWhile f :=
  (List.prefix_iff_eq_take.mp (List.takeWhile_prefix f)).symm

/-- All characters of a run are of its class. -/
theorem Accepts.run (h : (run f).Accepts w) : ∀ c ∈ w, f c = true := by
  obtain ⟨cs, n, hn, rfl⟩ := h
  cases hn
  rw [take_length_takeWhile]
  intro c hc
  exact List.mem_takeWhile_imp hc

theorem countRepeats_char (f : Char → Bool) (cs : List Char) :
    countRepeats (Pattern.char f) 0 cs = (cs.takeWhile f).length := by
  induction cs with
  | nil => rfl
  | cons c cs ih =>
    by_cases hc : f c = true
    · simp [countRepeats, Pattern.char, hc, ih]
    · simp [countRepeats, Pattern.char, hc]

/-- A class repeated at least once gives words that are not empty, of characters of the class. -/
theorem Accepts.many1_char (h : (many1 (Pattern.char f)).Accepts w) :
    w ≠ [] ∧ ∀ c ∈ w, f c = true := by
  obtain ⟨u, v, hu, hv, rfl⟩ := Accepts.seq h
  obtain ⟨c, rfl, hc⟩ := Accepts.char hu
  have hmany : many (Pattern.char f) = Pattern.run f := by
    funext cs
    exact congrArg some (countRepeats_char f cs)
  rw [hmany] at hv
  exact ⟨List.cons_ne_nil _ _, List.forall_mem_cons.mpr ⟨hc, Accepts.run hv⟩⟩

end Pattern

/-! ## Tokens -/

/-- The text of a token is one that the pattern of its kind accepts. -/
def Token.Spelled (t : Token) : Prop := (Lexer.patternOf t.kind).Accepts t.text.toList

namespace Lexer

/-- A rule cuts off what the pattern of the kind matches, be the kind its own or the one it yields
to. -/
theorem patternOf_of_cut? {cs : List Char} {k : Kind} {n : Nat} (h : cut? cs = some (.token k, n)) :
    patternOf k cs = some n := by
  obtain ⟨r, hr, hcut⟩ := List.exists_of_findSome?_eq_some h
  rcases List.mem_append.mp hr with hr | hr
  · obtain ⟨j, -, rfl⟩ := List.mem_map.mp hr
    unfold Rule.cut? at hcut
    split at hcut <;> cases hcut
  · obtain ⟨j, -, rfl⟩ := List.mem_map.mp hr
    unfold Rule.cut? at hcut
    split at hcut
    · cases hcut
    · cases hcut
    · rename_i m _ hm
      split at hcut
      · cases hcut
        exact hm
      · rename_i kind longer hyields
        obtain ⟨j', -, hj'⟩ := Option.map_eq_some_iff.mp hyields
        cases hj'
        split at hcut
        · cases hcut
          exact hm
        · rename_i m' hm'
          split at hcut
          · cases hcut
            exact hm'
          · cases hcut
            exact hm

/-- What was cut off as a token of some kind is accepted by the pattern of that kind. -/
theorem accepts_of_mem_pieces {cs : List Char} : ∀ p ∈ pieces cs, ∀ k, p.cut = some (.token k) →
    (patternOf k).Accepts p.text := by
  fun_induction pieces cs with
  | case1 => simp
  | case2 c cs cut n hcut ih =>
    intro p hp k hk
    rcases List.mem_cons.mp hp with rfl | hp
    · cases hk
      exact ⟨c :: cs, n + 1, patternOf_of_cut? hcut, rfl⟩
    · exact ih p hp k hk
  | case3 c cs _ ih =>
    intro p hp k hk
    unfold skip at hp
    split at hp
    · rename_i text ps hps
      rcases List.mem_cons.mp hp with rfl | hp
      · cases hk
      · exact ih p (by rw [hps]; exact List.mem_cons_of_mem _ hp) k hk
    · rcases List.mem_cons.mp hp with rfl | hp
      · cases hk
      · exact ih p hp k hk

end Lexer

/-- All tokens of a source are spelled as their kinds say. -/
theorem Lexing.spelled_ofText (source : String) : ∀ t ∈ (ofText source).tokens, t.Spelled := by
  have hpieces (start : Nat) (ps : List Lexer.Piece)
      (hps : ∀ p ∈ ps, ∀ k, p.cut = some (.token k) → (Lexer.patternOf k).Accepts p.text) :
      ∀ t ∈ (ofPieces start ps).tokens, t.Spelled := by
    induction ps generalizing start with
    | nil => nofun
    | cons p ps ih =>
      obtain ⟨hp, hps⟩ := List.forall_mem_cons.mp hps
      have ih := ih (start + Text.width p.text) hps
      obtain ⟨cut, text⟩ := p
      rcases cut with _ | (kind | kind)
      · exact ih
      · refine List.forall_mem_cons.mpr ⟨?_, ih⟩
        have haccepts := hp kind rfl
        rwa [← String.toList_ofList (l := text)] at haccepts
      · exact ih
  exact hpieces 0 _ Lexer.accepts_of_mem_pieces

/-! ## Numbers -/

namespace Decimal

/-- Digits, perhaps with a point before the last of them. -/
def IsNumeral (w : List Char) : Prop :=
  (∃ a b, w = a ++ '.' :: b ∧ (∀ c ∈ a, c.isDigit) ∧ (∀ c ∈ b, c.isDigit) ∧ b ≠ []) ∨
    (w ≠ [] ∧ ∀ c ∈ w, c.isDigit)

theorem readDigits?_isSome {w : List Char} (h : IsNumeral w) : (readDigits? w).isSome := by
  unfold readDigits?
  rcases h with ⟨a, b, rfl, ha, hb, hne⟩ | ⟨hne, hw⟩
  · have hdrop : (a ++ '.' :: b).dropWhile Char.isDigit = '.' :: b := by
      rw [List.dropWhile_append_of_pos ha]
      rfl
    have hall : b.all Char.isDigit = true := List.all_eq_true.mpr hb
    simp [hdrop, hall, hne]
  · have hdrop : w.dropWhile Char.isDigit = [] := List.dropWhile_eq_nil_iff.mpr hw
    have htake : w.takeWhile Char.isDigit = w := List.takeWhile_eq_self_iff.mpr hw
    simp [hdrop, htake, hne]

/-- A numeral starts with no sign and goes on with digits and points only. -/
theorem IsNumeral.isNumberChar {w : List Char} (h : IsNumeral w) :
    w ≠ [] ∧ ∀ c ∈ w, Dimension.isNumberChar false c = true := by
  have hdigit {c : Char} (hc : c.isDigit) : Dimension.isNumberChar false c = true := by
    simp [Dimension.isNumberChar, hc]
  rcases h with ⟨a, b, rfl, ha, hb, hne⟩ | ⟨hne, hw⟩
  · refine ⟨by simp, ?_⟩
    simp only [List.mem_append, List.mem_cons]
    rintro c (hc | rfl | hc)
    · exact hdigit (ha c hc)
    · rfl
    · exact hdigit (hb c hc)
  · exact ⟨hne, fun c hc => hdigit (hw c hc)⟩

/-- Every numeral is read as a number. -/
theorem read?_isSome {w : List Char} (h : IsNumeral w) : (read? w).isSome := by
  have hdigits := readDigits?_isSome h
  have hchars := h.isNumberChar.2
  unfold read?
  split
  · exact absurd (hchars '-' List.mem_cons_self) (by decide)
  · exact absurd (hchars '+' List.mem_cons_self) (by decide)
  · rw [Option.isSome_map]
    exact hdigits

end Decimal

namespace Lexer

open Pattern

/-- What the pattern for numbers accepts is a numeral. -/
theorem isNumeral_of_accepts {w : List Char} (h : number.Accepts w) : Decimal.IsNumeral w := by
  obtain ⟨p, hp, h⟩ := Accepts.firstOf h
  simp only [List.mem_cons, List.not_mem_nil, or_false] at hp
  rcases hp with rfl | rfl
  · obtain ⟨a, v, ha, hv, rfl⟩ := Accepts.seq h
    obtain ⟨u, b, hu, hb, rfl⟩ := Accepts.seq hv
    rw [Accepts.just hu]
    obtain ⟨hne, hb⟩ := Accepts.many1_char hb
    exact .inl ⟨a, b, rfl, Accepts.run ha, hb, hne⟩
  · exact .inr (Accepts.many1_char h)

/-- A unit starts with a character that no number has. -/
theorem unit_start {w : List Char} (h : unit.Accepts w) :
    ∃ c cs, w = c :: cs ∧ Dimension.isNumberChar false c = false := by
  obtain ⟨p, hp, h⟩ := Accepts.firstOf h
  simp only [List.mem_cons, List.not_mem_nil, or_false] at hp
  rcases hp with rfl | rfl
  · obtain ⟨u, v, hu, -, rfl⟩ := Accepts.seq h
    obtain ⟨c, rfl, hc⟩ := Accepts.char hu
    refine ⟨c, v, rfl, ?_⟩
    simp only [isLetter, Bool.or_eq_true, beq_iff_eq] at hc
    rcases hc with hc | rfl
    · have hdot : c ≠ '.' := by
        rintro rfl
        revert hc
        decide
      have hletter : (decide (c.val ≥ 'A'.val ∧ c.val ≤ 'Z'.val) ||
          (c.val ≥ 'a'.val && c.val ≤ 'z'.val)) = true := hc
      have hdigit : c.isDigit = false := by
        show (c.val ≥ '0'.val && c.val ≤ '9'.val) = false
        grind
      simp [Dimension.isNumberChar, hdigit, hdot]
    · rfl
  · exact ⟨'%', [], Accepts.just h, rfl⟩

end Lexer

namespace Dimension

/-- A numeral before something that is no part of a number is split off. -/
theorem splitNumber_append {w u : List Char} (hw : Decimal.IsNumeral w)
    (hu : u = [] ∨ ∃ c cs, u = c :: cs ∧ isNumberChar false c = false) :
    splitNumber (w ++ u) = (w, u) := by
  obtain ⟨hne, hw⟩ := hw.isNumberChar
  cases w with
  | nil => exact absurd rfl hne
  | cons c w =>
    obtain ⟨hc, hw⟩ := List.forall_mem_cons.mp hw
    have hfirst : isNumberChar true c = true := by
      simp only [isNumberChar, Bool.false_and, Bool.or_false] at hc
      simp [isNumberChar, hc]
    have htake : (w ++ u).takeWhile (isNumberChar false) = w := by
      rw [List.takeWhile_append_of_pos hw]
      rcases hu with rfl | ⟨d, cs, rfl, hd⟩
      · simp
      · simp [hd]
    have hdrop : (w ++ u).dropWhile (isNumberChar false) = u := by
      rw [List.dropWhile_append_of_pos hw]
      rcases hu with rfl | ⟨d, cs, rfl, hd⟩
      · rfl
      · simp [hd]
    simp [splitNumber, hfirst, htake, hdrop]

end Dimension

namespace Token.Spelled

open Pattern

/-- The text of a number token reads as the number at its start, with the unit behind that. -/
theorem read_eq {t : Token} (h : t.Spelled) (hkind : t.kind = .dimension ∨ t.kind = .number) :
    ∃ value u, Dimension.read t.text = .ok (.ofAtom value (String.ofList u)) ∧
    (u = [] ∨ Lexer.unit.Accepts u) := by
  obtain ⟨w, u, hw, htext, hu⟩ : ∃ w u, Decimal.IsNumeral w ∧ t.text.toList = w ++ u ∧
      (u = [] ∨ Lexer.unit.Accepts u) := by
    unfold Spelled at h
    rcases hkind with hkind | hkind
    · rw [hkind] at h
      obtain ⟨w, u, hw, hu, htext⟩ := Accepts.seq h
      exact ⟨w, u, Lexer.isNumeral_of_accepts hw, htext, .inr hu⟩
    · rw [hkind] at h
      exact ⟨_, [], Lexer.isNumeral_of_accepts h, (List.append_nil _).symm, .inl rfl⟩
  obtain ⟨value, hvalue⟩ := Option.isSome_iff_exists.mp (Decimal.read?_isSome hw)
  refine ⟨value, u, ?_, hu⟩
  simp [Dimension.read, htext,
    Dimension.splitNumber_append hw (hu.imp_right Lexer.unit_start), hvalue]

/-- The text of a number token reads as a number. -/
theorem read_number {t : Token} (h : t.Spelled) (hkind : t.kind = .dimension ∨ t.kind = .number) :
    ∃ d, Dimension.read t.text = .ok d := by
  obtain ⟨value, u, hread, -⟩ := h.read_eq hkind
  exact ⟨_, hread⟩

theorem text_eq {t : Token} {s : String} (h : t.text.toList = s.toList) : t.text = s :=
  String.toList_inj.mp h

/-- The text of a sign in a sum. -/
theorem sumSign {t : Token} (h : t.Spelled) (hkind : t.kind = .plus ∨ t.kind = .minus) :
    ∃ o, Operator.ofSymbol? t.text = some o ∧ (o = .add ∨ o = .sub) := by
  unfold Spelled at h
  rcases hkind with hkind | hkind
  all_goals rw [hkind] at h
  · exact ⟨.add, by rw [text_eq (s := "+") (Accepts.just h)]; rfl, .inl rfl⟩
  · exact ⟨.sub, by rw [text_eq (s := "-") (Accepts.just h)]; rfl, .inr rfl⟩

/-- The text of a sign in a product. -/
theorem productSign {t : Token} (h : t.Spelled) (hkind : t.kind = .star ∨ t.kind = .slash) :
    ∃ o, Operator.ofSymbol? t.text = some o ∧ (o = .mul ∨ o = .div) := by
  unfold Spelled at h
  rcases hkind with hkind | hkind
  all_goals rw [hkind] at h
  · exact ⟨.mul, by rw [text_eq (s := "*") (Accepts.just h)]; rfl, .inl rfl⟩
  · obtain ⟨u, v, hu, hv, huv⟩ := Accepts.seq (p := optional (just '.')) (q := just '/') h
    rw [Accepts.just hv] at huv
    rcases Accepts.optional hu with rfl | hu
    · exact ⟨.div, by rw [text_eq (s := "/") huv]; rfl, .inr rfl⟩
    · rw [Accepts.just hu] at huv
      exact ⟨.div, by rw [text_eq (s := "./") huv]; rfl, .inr rfl⟩

/-- The text of a sign is the symbol of an operator. -/
theorem operator {t : Token} (h : t.Spelled)
    (hkind : t.kind = .plus ∨ t.kind = .minus ∨ t.kind = .star ∨ t.kind = .slash) :
    ∃ o, Operator.ofSymbol? t.text = some o := by
  rcases or_assoc.mpr hkind with hkind | hkind
  · obtain ⟨o, ho, -⟩ := h.sumSign hkind
    exact ⟨o, ho⟩
  · obtain ⟨o, ho, -⟩ := h.productSign hkind
    exact ⟨o, ho⟩

end Token.Spelled

end LessCss
