import Mathlib.Data.List.DropRight
import LessCss.Proofs.Lexing.Cutting

/-!
# Escapes at the end of a text

A backslash takes the next character into the name that it stands in, and behind hexadecimal digits
a blank as well.  So a name goes on behind its end in two cases only: if it ends in a backslash that
has nothing to escape yet (`Lexer.dangles`), and before a blank, if it ends in an escape of digits
(`Lexer.endsInEscape`).  The first does not happen to whole names
(`Lexer.Escaped.dangles_eq_false`), the second may.  Before any other character that is none of a
name, the name is at its end (`Lexer.Escaped.of_append_cons`).
-/

namespace LessCss

namespace Pattern

variable {p : Pattern} {f : Char → Bool} {w : List Char}

/-- A run of limited length is not empty, not too long, and of one class. -/
theorem Accepts.runUpTo {n : Nat} (h : (runUpTo n f).Accepts w) :
    w ≠ [] ∧ w.length ≤ n ∧ ∀ c ∈ w, f c = true := by
  obtain ⟨cs, k, hk, rfl⟩ := h
  obtain ⟨hne, hlength⟩ := runUpTo_eq_some.mp hk
  have hle := length_takeWhile_le f (cs.take n)
  rw [List.length_take] at hle
  have htake : cs.take k = (cs.take n).takeWhile f := by
    rw [← take_length_takeWhile f (cs.take n), List.take_take, hlength, Nat.min_eq_left (by omega)]
  rw [htake]
  refine ⟨?_, by omega, fun c hc => List.mem_takeWhile_imp hc⟩
  rw [← List.length_pos_iff]
  omega

/-- The match under way, and then a repetition from its end on. -/
theorem countRepeats_ahead (p : Pattern) {ahead : Nat} {cs : List Char} (h : ahead ≤ cs.length) :
    countRepeats p ahead cs = ahead + countRepeats p 0 (cs.drop ahead) := by
  induction ahead generalizing cs with
  | zero => simp
  | succ ahead ih =>
    cases cs with
    | nil => cases h
    | cons c cs =>
      rw [countRepeats, ih (Nat.le_of_succ_le_succ h), List.drop_succ_cons]
      omega

/-- What a repetition accepts is made of words that the pattern accepts. -/
theorem Accepts.many (hp : p.Local) (h : (many p).Accepts w) :
    ∃ words : List (List Char), w = words.flatten ∧ ∀ u ∈ words, p.Accepts u := by
  obtain ⟨cs, n, hn, rfl⟩ := h
  cases hn
  induction hlength : cs.length using Nat.strong_induction_on generalizing cs with
  | _ length ih =>
    subst hlength
    cases cs with
    | nil => exact ⟨[], rfl, nofun⟩
    | cons c cs =>
      by_cases hmatch : ∃ n, p (c :: cs) = some (n + 1)
      · obtain ⟨n, hn⟩ := hmatch
        have hle : n ≤ cs.length := Nat.le_of_succ_le_succ (hp.bounded hn)
        have hlt : (cs.drop n).length < (c :: cs).length := by
          rw [List.length_drop, List.length_cons]
          omega
        obtain ⟨words, hwords, haccepts⟩ := ih _ hlt _ rfl
        refine ⟨(c :: cs).take (n + 1) :: words, ?_,
          List.forall_mem_cons.mpr ⟨⟨_, _, hn, rfl⟩, haccepts⟩⟩
        rw [List.flatten_cons, ← hwords, countRepeats_of_match hn, countRepeats_ahead p hle,
          Nat.add_right_comm, List.take_add, List.drop_succ_cons]
      · rw [countRepeats_of_no_match fun n hn => hmatch ⟨n, hn⟩]
        exact ⟨[], rfl, nofun⟩

end Pattern

namespace Lexer

open Pattern

/-! ## Backslashes -/

/-- Whether a text ends in a backslash that has nothing to escape yet. -/
def dangles (cs : List Char) : Bool := cs.foldl (fun pending c => c == '\\' && !pending) false

/-- Whether a text ends in an escape of digits, to which a blank behind it would belong. -/
def endsInEscape (cs : List Char) : Bool :=
  let digits := cs.rtakeWhile isHex
  !digits.isEmpty && digits.length ≤ 6 && dangles (cs.rdropWhile isHex)

section Dangling

variable {a b : List Char}

/-- Whether a backslash dangles depends on what is behind a text in which none does. -/
theorem dangles_append (h : dangles a = false) (b : List Char) : dangles (a ++ b) = dangles b := by
  rw [dangles] at h
  rw [dangles, List.foldl_append, h, dangles]

/-- A backslash dangles at the end just if none dangles before it. -/
theorem dangles_concat (a : List Char) (c : Char) :
    dangles (a ++ [c]) = (c == '\\' && !dangles a) := by
  rw [dangles, List.foldl_append]
  rfl

/-- Any other character than a backslash starts anew. -/
theorem dangles_append_cons {c : Char} (hc : c ≠ '\\') (a b : List Char) :
    dangles (a ++ c :: b) = dangles b := by
  have hstart : dangles (a ++ [c]) = false := by simp [dangles_concat, hc]
  rw [List.append_cons, dangles_append hstart]

theorem dangles_cons {c : Char} (hc : c ≠ '\\') (b : List Char) : dangles (c :: b) = dangles b :=
  dangles_append_cons hc [] b

/-- Whatever is escaped does not count. -/
theorem dangles_escape (c : Char) (b : List Char) : dangles ('\\' :: c :: b) = dangles b := by
  simp [dangles]

/-- Without a backslash none dangles. -/
theorem dangles_of_not_mem (h : '\\' ∉ a) : dangles a = false := by
  induction a with
  | nil => rfl
  | cons c a ih =>
    rw [List.mem_cons, not_or] at h
    rw [dangles_cons (Ne.symm h.1), ih h.2]

/-- A text ends in an escape if a backslash with up to six digits behind it stands at its end. -/
theorem endsInEscape_iff :
    endsInEscape a = true ↔ ∃ u digits, a = u ++ '\\' :: digits ∧ dangles u = false ∧
    digits ≠ [] ∧ digits.length ≤ 6 ∧ ∀ c ∈ digits, isHex c = true := by
  constructor
  · intro h
    simp only [endsInEscape, Bool.and_eq_true, Bool.not_eq_true', List.isEmpty_eq_false_iff,
      decide_eq_true_eq] at h
    obtain ⟨⟨hne, hle⟩, hdangles⟩ := h
    obtain hnil | ⟨u, c, hu⟩ := (a.rdropWhile isHex).eq_nil_or_concat'
    · rw [hnil] at hdangles
      cases hdangles
    · rw [hu, dangles_concat, Bool.and_eq_true, Bool.not_eq_true', beq_iff_eq] at hdangles
      obtain ⟨rfl, hdangles⟩ := hdangles
      refine ⟨u, a.rtakeWhile isHex, ?_, hdangles, hne, hle, fun c hc => List.mem_rtakeWhile_imp hc⟩
      rw [List.append_cons, ← hu, List.rdropWhile_append_rtakeWhile]
  · rintro ⟨u, digits, rfl, hdangles, hne, hle, hhex⟩
    have hhex' : ∀ c ∈ digits.reverse, isHex c = true := fun c hc => hhex c (List.mem_reverse.mp hc)
    have htake : (u ++ '\\' :: digits).rtakeWhile isHex = digits := by
      rw [List.rtakeWhile, List.reverse_append, List.reverse_cons, List.append_assoc,
        List.takeWhile_append_of_pos hhex', List.singleton_append,
          List.takeWhile_cons_of_neg (by decide),
        List.append_nil, List.reverse_reverse]
    have hdrop : (u ++ '\\' :: digits).rdropWhile isHex = u ++ ['\\'] := by
      rw [List.rdropWhile, List.reverse_append, List.reverse_cons, List.append_assoc,
        List.dropWhile_append_of_pos hhex', List.singleton_append,
          List.dropWhile_cons_of_neg (by decide),
        List.reverse_cons, List.reverse_reverse]
    simp [endsInEscape, htake, hdrop, dangles_concat, hdangles, hne, hle]

theorem endsInEscape_append (h : dangles a = false) (hb : endsInEscape b = true) :
    endsInEscape (a ++ b) = true := by
  obtain ⟨u, digits, rfl, hu, hdigits⟩ := endsInEscape_iff.mp hb
  exact endsInEscape_iff.mpr
    ⟨a ++ u, digits, (List.append_assoc ..).symm, by rw [dangles_append h, hu], hdigits⟩

end Dangling

/-! ## Escaped text -/

theorem ne_backslash_of_isHex {c : Char} (h : isHex c = true) : c ≠ '\\' := by
  rintro rfl
  exact absurd h (by decide)

theorem ne_backslash_of_isBlank {c : Char} (h : isBlank c = true) : c ≠ '\\' := by
  rintro rfl
  exact absurd h (by decide)

/-- Characters of a class and escapes, side by side. -/
inductive Escaped (f : Char → Bool) : List Char → Prop
  | nil : Escaped f []
  | plain {c : Char} {w : List Char} (hc : f c = true) (h : Escaped f w) : Escaped f (c :: w)
  | digits {digits blank w : List Char} (hne : digits ≠ []) (hle : digits.length ≤ 6)
    (hhex : ∀ c ∈ digits, isHex c = true)
    (hblank : blank = [] ∨ ∃ c, blank = [c] ∧ isBlank c = true)
    (h : Escaped f w) : Escaped f (('\\' :: digits ++ blank) ++ w)
  | other {c : Char} {w : List Char} (h : Escaped f w) : Escaped f ('\\' :: c :: w)

/-- An escape of digits leaves no backslash dangling. -/
theorem dangles_digits {digits blank : List Char} (hne : digits ≠ [])
    (hhex : ∀ c ∈ digits, isHex c = true)
    (hblank : blank = [] ∨ ∃ c, blank = [c] ∧ isBlank c = true) :
    dangles ('\\' :: digits ++ blank) = false := by
  obtain ⟨c, digits, rfl⟩ := List.exists_cons_of_ne_nil hne
  rw [List.cons_append, List.cons_append, dangles_escape]
  refine dangles_of_not_mem fun hmem => ?_
  rcases List.mem_append.mp hmem with hmem | hmem
  · exact ne_backslash_of_isHex (hhex _ (List.mem_cons_of_mem _ hmem)) rfl
  · rcases hblank with rfl | ⟨d, rfl, hd⟩
    · cases hmem
    · exact ne_backslash_of_isBlank hd (List.mem_singleton.mp hmem).symm

namespace Escaped

variable {f : Char → Bool} {w : List Char}

variable (hf : f '\\' = false)

include hf

/-- Characters of a class and escapes leave no backslash dangling. -/
theorem dangles_eq_false (h : Escaped f w) : dangles w = false := by
  induction h with
  | nil => rfl
  | @plain c w hc _ ih =>
    have hne : c ≠ '\\' := by
      rintro rfl
      rw [hf] at hc
      cases hc
    rw [dangles_cons hne, ih]
  | digits hne hle hhex hblank _ ih => rw [dangles_append (dangles_digits hne hhex hblank), ih]
  | other _ ih => rw [dangles_escape, ih]

/-- Where escaped text has a character that cannot stand there by itself, the character is
escaped. -/
theorem of_append_cons {a z : List Char} {c : Char} (h : Escaped f (a ++ c :: z)) (hc : f c = false)
    (hne : c ≠ '\\') (hhex : isHex c = false) :
    dangles a = true ∨ isBlank c = true ∧ endsInEscape a = true := by
  generalize hw : a ++ c :: z = w at h
  induction h generalizing a with
  | nil => simp at hw
  | @plain d w hd _ ih =>
    rcases List.append_eq_cons_iff.mp hw with ⟨rfl, hcons⟩ | ⟨a, rfl, hcons⟩
    · cases hcons
      rw [hc] at hd
      cases hd
    · have hd : dangles [d] = false := by
        refine dangles_of_not_mem fun hmem => ?_
        rw [← List.mem_singleton.mp hmem, hf] at hd
        cases hd
      rw [← List.singleton_append, dangles_append hd]
      exact (ih hcons.symm).imp_right fun ⟨hblank, hend⟩ => ⟨hblank, endsInEscape_append hd hend⟩
  | @digits digits blank w hdigits hle hall hblank _ ih =>
    have hescape := dangles_digits hdigits hall hblank
    rcases List.append_eq_append_iff.mp hw with ⟨u, hu, hcons⟩ | ⟨a, rfl, hcons⟩
    · cases u with
      | nil =>
        rw [List.append_nil] at hu
        subst hu
        exact absurd (ih (a := []) hcons) (by simp [dangles, endsInEscape])
      | cons d u =>
        obtain ⟨rfl, -⟩ := List.cons.inj hcons
        -- the character is the blank behind the digits, as it is neither the backslash nor a digit
        have hbehind (v : List Char) : '\\' :: digits ≠ a ++ c :: v := by
          intro hv
          rcases List.append_eq_cons_iff.mp hv.symm with ⟨rfl, hcons⟩ | ⟨a, rfl, rfl⟩
          · exact hne (List.cons.inj hcons).1
          · rw [hall c (by simp)] at hhex
            cases hhex
        rcases hblank with rfl | ⟨d, rfl, hd⟩
        · exact absurd (by simpa using hu) (hbehind u)
        · rcases u.eq_nil_or_concat' with rfl | ⟨v, e, rfl⟩
          · obtain ⟨rfl, hcd⟩ := List.append_inj' hu rfl
            obtain ⟨rfl, -⟩ := List.cons.inj hcd
            exact .inr ⟨hd, endsInEscape_iff.mpr ⟨[], digits, rfl, rfl, hdigits, hle, hall⟩⟩
          · rw [← List.cons_append, ← List.append_assoc] at hu
            exact absurd (List.append_inj' hu rfl).1 (hbehind v)
    · rw [dangles_append hescape]
      exact (ih hcons.symm).imp_right fun ⟨hblank, hend⟩ =>
        ⟨hblank, endsInEscape_append hescape hend⟩
  | @other d w _ ih =>
    rcases List.append_eq_cons_iff.mp hw with ⟨rfl, hcons⟩ | ⟨a, rfl, hcons⟩
    · exact absurd (List.cons.inj hcons).1 hne
    · rcases List.append_eq_cons_iff.mp hcons.symm with ⟨rfl, -⟩ | ⟨a, rfl, hcons⟩
      · exact .inl rfl
      · rw [dangles_escape]
        have hescape : dangles ['\\', d] = false := dangles_escape d []
        exact (ih (List.cons.inj hcons.symm).2).imp_right fun ⟨hblank, hend⟩ =>
          ⟨hblank, endsInEscape_append (a := ['\\', d]) hescape hend⟩

end Escaped

/-! ## Names -/

/-- An escape is a backslash with digits and perhaps a blank behind it, or with another
character. -/
theorem escape_accepts {w : List Char} (h : escape.Accepts w) :
    (∃ digits blank, w = '\\' :: digits ++ blank ∧ digits ≠ [] ∧ digits.length ≤ 6 ∧
      (∀ c ∈ digits, isHex c = true) ∧
      (blank = [] ∨ ∃ c, blank = [c] ∧ isBlank c = true)) ∨ ∃ c, w = ['\\', c] := by
  obtain ⟨p, hp, h⟩ := Accepts.firstOf h
  simp only [List.mem_cons, List.not_mem_nil, or_false] at hp
  rcases hp with rfl | rfl
  · obtain ⟨u, v, hu, hv, rfl⟩ := Accepts.seq h
    obtain ⟨digits, blank, hdigits, hblank, rfl⟩ := Accepts.seq hv
    obtain ⟨hne, hle, hhex⟩ := Accepts.runUpTo hdigits
    rw [Accepts.just hu]
    refine .inl ⟨digits, blank, rfl, hne, hle, hhex, ?_⟩
    exact (Accepts.optional hblank).imp_right Accepts.char
  · obtain ⟨u, v, hu, hv, rfl⟩ := Accepts.seq h
    obtain ⟨c, rfl, -⟩ := Accepts.char hv
    rw [Accepts.just hu]
    exact .inr ⟨c, rfl⟩

section Names

variable {f g : Char → Bool} {u w : List Char}

theorem Escaped.orEscape_append (hfg : ∀ c, f c = true → g c = true) (hu : (orEscape f).Accepts u)
    (hw : Escaped g w) : Escaped g (u ++ w) := by
  obtain ⟨p, hp, hu⟩ := Accepts.firstOf hu
  simp only [List.mem_cons, List.not_mem_nil, or_false] at hp
  rcases hp with rfl | rfl
  · obtain ⟨c, rfl, hc⟩ := Accepts.char hu
    exact .plain (hfg c hc) hw
  · rcases escape_accepts hu with ⟨digits, blank, rfl, hne, hle, hhex, hblank⟩ | ⟨c, rfl⟩
    · exact .digits hne hle hhex hblank hw
    · exact .other hw

/-- Repeating characters of a class and escapes gives nothing else. -/
theorem escaped_of_many (h : (many (orEscape f)).Accepts w) : Escaped f w := by
  obtain ⟨words, hw, hwords⟩ := Accepts.many (orEscape_local f) h
  clear h
  induction words generalizing w with
  | nil => exact hw ▸ .nil
  | cons u words ih =>
    obtain ⟨hu, hwords⟩ := List.forall_mem_cons.mp hwords
    rw [hw, List.flatten_cons]
    exact .orEscape_append (fun _ hc => hc) hu (ih rfl hwords)

theorem escaped_of_many1 (h : (many1 nameChar).Accepts w) : Escaped isNameChar w := by
  obtain ⟨u, v, hu, hv, rfl⟩ := Accepts.seq h
  exact .orEscape_append (fun _ hc => hc) hu (escaped_of_many hv)

/-- A name consists of characters of names and escapes. -/
theorem escaped_of_name (h : name.Accepts w) : Escaped isNameChar w := by
  obtain ⟨p, hp, h⟩ := Accepts.firstOf h
  simp only [List.mem_cons, List.not_mem_nil, or_false] at hp
  rcases hp with rfl | rfl
  · obtain ⟨u, v, hu, hv, rfl⟩ := Accepts.seq h
    obtain ⟨u', w, hu', hw, rfl⟩ := Accepts.seq (p := just '-') (q := many1 nameChar) hv
    rw [Accepts.just hu, Accepts.just hu']
    exact .plain rfl (.plain rfl (escaped_of_many1 hw))
  · obtain ⟨u, v, hu, hv, rfl⟩ := Accepts.seq h
    obtain ⟨head, tail, hhead, htail, rfl⟩ := Accepts.seq hv
    have hstart (c : Char) (hc : isNameStart c = true) : isNameChar c = true := by
      simp [isNameChar, hc]
    have hname : Escaped isNameChar (head ++ tail) :=
      .orEscape_append hstart hhead (escaped_of_many htail)
    rcases Accepts.optional hu with rfl | hu
    · exact hname
    · rw [Accepts.just hu]
      exact .plain rfl hname

end Names

end Lexer

end LessCss
