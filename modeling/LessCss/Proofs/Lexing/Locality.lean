import LessCss.Proofs.Lexing

/-!
# Patterns that do not look ahead

What a pattern matches at the start of a text does not depend on what stands behind the match, as
long as the match does not end where the text does.  This takes two claims (`Pattern.Local`): a
match that lies within a first part of a text is found in that part alone, and a match in the first
part is, in the whole text, still one, and not shorter.

The second claim needs care where one pattern follows another: in the whole text the first pattern
must not swallow what the second matched.  It does not if it only goes on from the end of the first
part (`Pattern.Firm`). A repetition may stop inside of a first part for want of characters, at half
of an escape, and stays the same only before a character with which it cannot go on
(`Pattern.many_staysBefore`).
-/

namespace LessCss

namespace Pattern

variable {p q : Pattern} {f : Char → Bool}

/-- What a pattern matches depends on the matched characters, and on later ones only in that it may
match more. -/
structure Local (p : Pattern) : Prop where
  bounded {a : List Char} {n : Nat} : p a = some n → n ≤ a.length
  shrinks {a b : List Char} {n : Nat} : p (a ++ b) = some n → n ≤ a.length → p a = some n
  grows {a : List Char} (b : List Char) {n : Nat} : p a = some n → ∃ m, p (a ++ b) = some m ∧ n ≤ m

/-- A match that ends before a character of a class stays the same when the text goes on. -/
def StaysBefore (C : Char → Prop) (p : Pattern) : Prop :=
  ∀ a b n c v, p a = some n → a.drop n = c :: v → C c → p (a ++ b) = some n

/-- A match that ends before any character stays the same when the text goes on. -/
def Firm (p : Pattern) : Prop := ∀ a b n, p a = some n → n < a.length → p (a ++ b) = some n

/-- Every match stays the same when the text goes on. -/
def Fixed (p : Pattern) : Prop := ∀ a b n, p a = some n → p (a ++ b) = some n

/-- What is matched starts with a character of a class. -/
def Starts (C : Char → Prop) (p : Pattern) : Prop := ∀ a n, p a = some n → ∃ c v, a = c :: v ∧ C c

/-- Matches that always stay the same stay so before a character. -/
theorem Fixed.firm (h : p.Fixed) : p.Firm := fun a b n ha _ => h a b n ha

theorem lt_length_of_drop {a v : List Char} {n : Nat} {c : Char} (h : a.drop n = c :: v) :
    n < a.length := by
  by_contra hge
  rw [List.drop_of_length_le (Nat.le_of_not_lt hge)] at h
  cases h

/-- A firm pattern stays the same before the characters of any class. -/
theorem Firm.staysBefore {C : Char → Prop} (h : p.Firm) : p.StaysBefore C :=
  fun a b n _ _ ha hdrop _ => h a b n ha (lt_length_of_drop hdrop)

theorem StaysBefore.firm (h : p.StaysBefore fun _ => True) : p.Firm := by
  intro a b n ha hn
  obtain ⟨c, v, hdrop⟩ :=
    List.exists_cons_of_length_pos (l := a.drop n) (by rw [List.length_drop]; omega)
  exact h a b n c v ha hdrop trivial

theorem starts_of_nil (hnil : p [] = none) : p.Starts fun _ => True := by
  intro a n ha
  cases a with
  | nil => rw [hnil] at ha; cases ha
  | cons c v => exact ⟨c, v, rfl, trivial⟩

/-- A fixed pattern is local if its matches lie in the text and are found without what follows
them. -/
theorem Fixed.local (h : p.Fixed) (hbounded : ∀ a n, p a = some n → n ≤ a.length)
    (hshrinks : ∀ a b n, p (a ++ b) = some n → n ≤ a.length → p a = some n) : p.Local :=
  ⟨hbounded _ _, hshrinks _ _ _, fun {_} b {n} ha => ⟨n, h _ b n ha, Nat.le_refl n⟩⟩

/-- A pattern that does not match a text does not match the first part of it. -/
theorem Local.none_of_append (h : p.Local) {a b : List Char} (hab : p (a ++ b) = none) :
    p a = none := by
  cases ha : p a with
  | none => rfl
  | some n =>
    obtain ⟨m, hm, _⟩ := h.grows b ha
    rw [hab] at hm
    cases hm

/-- A match in the first part is the match in the whole text, or the latter goes beyond the first
part. -/
theorem Local.same_or_beyond (h : p.Local) {a : List Char} (b : List Char) {n : Nat}
    (ha : p a = some n) :
    p (a ++ b) = some n ∨ ∃ m, p (a ++ b) = some m ∧ a.length < m := by
  obtain ⟨m, hm, hle⟩ := h.grows b ha
  by_cases hlt : a.length < m
  · exact .inr ⟨m, hm, hlt⟩
  · have hsame := h.shrinks hm (Nat.le_of_not_lt hlt)
    rw [ha] at hsame
    rw [hm, ← hsame]
    exact .inl rfl

/-! ### Single characters and words -/

/-- One character of a class is matched whatever follows. -/
theorem char_fixed (f : Char → Bool) : (char f).Fixed := by
  intro a b n ha
  cases a with
  | nil => cases ha
  | cons c a => exact ha

theorem char_eq_some {a : List Char} {n : Nat} :
    char f a = some n ↔ ∃ c v, a = c :: v ∧ f c = true ∧ n = 1 := by
  cases a with
  | nil => simp [char]
  | cons c v =>
    rw [char, Option.ite_none_right_eq_some, Option.some.injEq]
    constructor
    · rintro ⟨hc, hn⟩
      exact ⟨c, v, rfl, hc, hn.symm⟩
    · rintro ⟨_, _, hcons, hc, rfl⟩
      cases hcons
      exact ⟨hc, rfl⟩

theorem char_local (f : Char → Bool) : (char f).Local := by
  refine (char_fixed f).local ?_ ?_
  · intro a n ha
    obtain ⟨c, v, rfl, _, rfl⟩ := char_eq_some.mp ha
    simp
  · intro a b n hab hn
    cases a with
    | cons c a => exact hab
    | nil =>
      obtain ⟨c, v, _, _, rfl⟩ := char_eq_some.mp hab
      exact absurd hn (Nat.not_succ_le_zero 0)

theorem just_eq_some {d : Char} {a : List Char} {n : Nat} :
    just d a = some n ↔ ∃ v, a = d :: v ∧ n = 1 := by
  rw [just, char_eq_some]
  simp

theorem just_starts (d : Char) : (just d).Starts (· = d) := by
  intro a n ha
  obtain ⟨v, rfl, _⟩ := just_eq_some.mp ha
  exact ⟨d, v, rfl, rfl⟩

theorem just_local (c : Char) : (just c).Local := char_local _

theorem just_fixed (c : Char) : (just c).Fixed := char_fixed _

/-- A word, compared with the text after changing each character of the text. -/
def wordVia (g : Char → Char) (w : List Char) : Pattern := fun cs =>
  if w.isPrefixOf (cs.map g) then some w.length else none

/-- A word is matched if it is a prefix of the changed text. -/
theorem wordVia_eq_some {g : Char → Char} {w a : List Char} {n : Nat} :
    wordVia g w a = some n ↔ w <+: a.map g ∧ w.length = n := by
  rw [wordVia, Option.ite_none_right_eq_some, List.isPrefixOf_iff_prefix, Option.some_inj]

theorem wordVia_fixed (g : Char → Char) (w : List Char) : (wordVia g w).Fixed := by
  intro a b n ha
  rw [wordVia_eq_some] at *
  refine ⟨ha.1.trans ?_, ha.2⟩
  rw [List.map_append]
  exact List.prefix_append _ _

theorem wordVia_local (g : Char → Char) (w : List Char) : (wordVia g w).Local := by
  refine (wordVia_fixed g w).local ?_ ?_
  · intro a n ha
    rw [wordVia_eq_some] at ha
    have hle := ha.1.length_le
    rwa [List.length_map, ha.2] at hle
  · intro a b n hab hn
    rw [wordVia_eq_some] at *
    obtain ⟨hword, rfl⟩ := hab
    rw [List.map_append] at hword
    exact ⟨List.prefix_of_prefix_length_le hword (List.prefix_append _ _) (by simpa using hn), rfl⟩

theorem word_eq (w : List Char) : word w = wordVia id w := by
  funext cs
  rw [word, wordVia, List.map_id]

theorem word_fixed (w : List Char) : (word w).Fixed := word_eq w ▸ wordVia_fixed id w

theorem word_local (w : List Char) : (word w).Local := word_eq w ▸ wordVia_local id w

theorem anyCase_local (w : List Char) : (anyCase w).Local := wordVia_local _ w

/-! ### Runs -/

/-- A run in a text that goes on is the same, unless it came to the end. -/
theorem length_takeWhile_append (f : Char → Bool) (a b : List Char) :
    ((a ++ b).takeWhile f).length =
      if (a.takeWhile f).length = a.length then a.length + (b.takeWhile f).length
      else (a.takeWhile f).length := by
  rw [List.takeWhile_append]
  split
  · rw [List.length_append]
  · rfl

theorem length_takeWhile_le (f : Char → Bool) (a : List Char) : (a.takeWhile f).length ≤ a.length :=
  (List.takeWhile_prefix f).length_le

/-- A run that ends before any character is not changed by what follows. -/
theorem run_firm (f : Char → Bool) : (run f).Firm := by
  intro a b n ha hn
  cases ha
  rw [run, length_takeWhile_append, if_neg (Nat.ne_of_lt hn)]

/-- A run does not look ahead, except for more of the class. -/
theorem run_local (f : Char → Bool) : (run f).Local where
  bounded ha := by
    cases ha
    exact length_takeWhile_le _ _
  shrinks {a b n} hab hn := by
    rw [run, length_takeWhile_append] at hab
    rw [run, ← hab]
    have hab := Option.some.inj hab
    split at hab
    · rename_i hall
      rw [if_pos hall]
      congr 1
      omega
    · rename_i hall
      rw [if_neg hall]
  grows {a} b {n} ha := by
    cases ha
    refine ⟨_, rfl, ?_⟩
    rw [length_takeWhile_append]
    split <;> omega

theorem runUpTo_eq_some {n k : Nat} {a : List Char} :
    runUpTo n f a = some k ↔ k ≠ 0 ∧ ((a.take n).takeWhile f).length = k := by
  unfold runUpTo
  split
  · rename_i h
    rw [h]
    simp only [reduceCtorEq, false_iff, not_and]
    exact fun hk h0 => hk h0.symm
  · rename_i j h
    rw [h, Option.some.injEq]
    omega

/-- A run of limited length goes on behind a text only if the text is all of the class and
shorter. -/
theorem length_runUpTo_append (n : Nat) (f : Char → Bool) (a b : List Char) :
    (((a ++ b).take n).takeWhile f).length =
      if ((a.take n).takeWhile f).length = min n a.length then
        min n a.length + ((b.take (n - a.length)).takeWhile f).length
      else ((a.take n).takeWhile f).length := by
  rw [List.take_append, length_takeWhile_append, List.length_take]

theorem runUpTo_firm (n : Nat) (f : Char → Bool) : (runUpTo n f).Firm := by
  intro a b k ha hk
  rw [runUpTo_eq_some] at *
  refine ⟨ha.1, ?_⟩
  rw [length_runUpTo_append, ha.2]
  split
  · -- as many characters as allowed: those of the other text do not count
    have hn : n ≤ a.length := by omega
    rw [Nat.sub_eq_zero_of_le hn, List.take_zero]
    simp only [List.takeWhile_nil, List.length_nil]
    omega
  · rfl

theorem runUpTo_local (n : Nat) (f : Char → Bool) : (runUpTo n f).Local where
  bounded {a k} ha := by
    rw [runUpTo_eq_some] at ha
    have hle := length_takeWhile_le f (a.take n)
    rw [List.length_take] at hle
    omega
  shrinks {a b k} hab hk := by
    rw [runUpTo_eq_some, length_runUpTo_append] at hab
    rw [runUpTo_eq_some]
    refine ⟨hab.1, ?_⟩
    have hle := length_takeWhile_le f (b.take (n - a.length))
    rw [List.length_take] at hle
    split at hab <;> omega
  grows {a} b {k} ha := by
    rw [runUpTo_eq_some] at ha
    refine ⟨(((a ++ b).take n).takeWhile f).length, runUpTo_eq_some.mpr ⟨?_, rfl⟩, ?_⟩
    · rw [length_runUpTo_append]
      split <;> omega
    · rw [length_runUpTo_append]
      split <;> omega

/-! ### One pattern after the other -/

/-- A pattern behind another one matches what the first leaves. -/
theorem seq_eq_some {a : List Char} {n : Nat} :
    seq p q a = some n ↔ ∃ i j, p a = some i ∧ q (a.drop i) = some j ∧ n = i + j := by
  unfold seq
  cases hp : p a with
  | none => simp
  | some i =>
    cases hq : q (a.drop i) with
    | none => simp [hq]
    | some j => simp [hq, eq_comm]

theorem seq_bounded (hp : p.Local) (hq : q.Local) {a : List Char} {n : Nat}
    (ha : seq p q a = some n) :
    n ≤ a.length := by
  obtain ⟨i, j, hi, hj, rfl⟩ := seq_eq_some.mp ha
  have hle := hp.bounded hi
  have hle' := hq.bounded hj
  rw [List.length_drop] at hle'
  omega

/-- All but the growing: that is where the second pattern might be swallowed. -/
theorem seq_local (hp : p.Local) (hq : q.Local)
    (hgrows : ∀ a b n, seq p q a = some n → ∃ m, seq p q (a ++ b) = some m ∧ n ≤ m) :
    (seq p q).Local where
  bounded ha := seq_bounded hp hq ha
  shrinks {a b n} hab hn := by
    obtain ⟨i, j, hi, hj, rfl⟩ := seq_eq_some.mp hab
    have hle : i ≤ a.length := by omega
    rw [List.drop_append_of_le_length hle] at hj
    refine seq_eq_some.mpr ⟨i, j, hp.shrinks hi hle, hq.shrinks hj ?_, rfl⟩
    rw [List.length_drop]
    omega
  grows {a} b {n} ha := hgrows a b n ha

/-- Where the first pattern stays the same, the second one may go on. -/
theorem seq_grows (hq : q.Local) {a b : List Char} {i j : Nat} (hi : p (a ++ b) = some i)
    (hle : i ≤ a.length) (hj : q (a.drop i) = some j) :
    ∃ m, seq p q (a ++ b) = some m ∧ i + j ≤ m := by
  obtain ⟨k, hk, hjk⟩ := hq.grows b hj
  rw [← List.drop_append_of_le_length hle] at hk
  exact ⟨i + k, seq_eq_some.mpr ⟨i, k, hi, hk, rfl⟩, Nat.add_le_add_left hjk i⟩

section Seq

variable {C : Char → Prop}

/-- The first pattern stays the same before what the second one starts with. -/
theorem seq_local_before (hp : p.Local) (hstays : p.StaysBefore C) (hq : q.Local)
    (hstarts : q.Starts C) :
    (seq p q).Local := by
  refine seq_local hp hq fun a b n ha => ?_
  obtain ⟨i, j, hi, hj, rfl⟩ := seq_eq_some.mp ha
  obtain ⟨c, v, hdrop, hc⟩ := hstarts _ _ hj
  exact seq_grows hq (hstays a b i c v hi hdrop hc) (hp.bounded hi) hj

/-- The second pattern matches something. -/
theorem seq_local_of_firm (hp : p.Local) (hfirm : p.Firm) (hq : q.Local) (hnil : q [] = none) :
    (seq p q).Local := seq_local_before hp hfirm.staysBefore hq (starts_of_nil hnil)

/-- The second pattern always matches, if only nothing. -/
theorem seq_local_of_total (hp : p.Local) (hq : q.Local) (htotal : ∀ cs, q cs ≠ none) :
    (seq p q).Local := by
  refine seq_local hp hq fun a b n ha => ?_
  have hle := seq_bounded hp hq ha
  obtain ⟨i, j, hi, hj, rfl⟩ := seq_eq_some.mp ha
  rcases hp.same_or_beyond b hi with hsame | ⟨m, hm, hlt⟩
  · exact seq_grows hq hsame (hp.bounded hi) hj
  · obtain ⟨k, hk⟩ := Option.ne_none_iff_exists'.mp (htotal ((a ++ b).drop m))
    exact ⟨m + k, seq_eq_some.mpr ⟨m, k, hm, hk, rfl⟩, by omega⟩

/-- One firm pattern behind another is firm, if the first stays the same before the second. -/
theorem seq_firm_before (hp : p.Local) (hstays : p.StaysBefore C) (hq : q.Firm)
    (hstarts : q.Starts C) :
    (seq p q).Firm := by
  intro a b n ha hn
  obtain ⟨i, j, hi, hj, rfl⟩ := seq_eq_some.mp ha
  obtain ⟨c, v, hdrop, hc⟩ := hstarts _ _ hj
  refine seq_eq_some.mpr ⟨i, j, hstays a b i c v hi hdrop hc, ?_, rfl⟩
  rw [List.drop_append_of_le_length (hp.bounded hi)]
  refine hq _ b j hj ?_
  rw [List.length_drop]
  omega

/-- A pattern behind a firm one stays the same before a class if it does so by itself. -/
theorem seq_staysBefore (hfirm : p.Firm) (hq : q.StaysBefore C) : (seq p q).StaysBefore C := by
  intro a b n c v ha hdrop hc
  obtain ⟨i, j, hi, hj, rfl⟩ := seq_eq_some.mp ha
  have hlt : i < a.length := Nat.lt_of_le_of_lt (Nat.le_add_right i j) (lt_length_of_drop hdrop)
  rw [← List.drop_drop] at hdrop
  refine seq_eq_some.mpr ⟨i, j, hfirm a b i hi hlt, ?_, rfl⟩
  rw [List.drop_append_of_le_length (Nat.le_of_lt hlt)]
  exact hq _ b j c v hj hdrop hc

theorem seq_firm (hp : p.Firm) (hq : q.Firm) : (seq p q).Firm :=
  (seq_staysBefore hp hq.staysBefore).firm

end Seq

/-! ### Choice -/

/-- The first of some patterns counts if it matches, and else the others. -/
theorem firstOf_cons_eq_some {ps : List Pattern} {a : List Char} {n : Nat} :
    firstOf (p :: ps) a = some n ↔ p a = some n ∨ p a = none ∧ firstOf ps a = some n := by
  rw [firstOf, Option.or_eq_some_iff]

/-- The first match of local patterns is local. -/
theorem firstOf_local {ps : List Pattern} (h : ∀ p ∈ ps, p.Local) : (firstOf ps).Local := by
  induction ps with
  | nil => exact ⟨nofun, nofun, nofun⟩
  | cons p ps ih =>
    obtain ⟨hp, hps⟩ := List.forall_mem_cons.mp h
    have ih := ih hps
    refine ⟨fun {a n} ha => ?_, fun {a b n} hab hn => ?_, fun {a} b {n} ha => ?_⟩
    · rcases firstOf_cons_eq_some.mp ha with ha | ⟨_, ha⟩
      · exact hp.bounded ha
      · exact ih.bounded ha
    · rcases firstOf_cons_eq_some.mp hab with hab | ⟨hnone, hab⟩
      · exact firstOf_cons_eq_some.mpr (.inl (hp.shrinks hab hn))
      · exact firstOf_cons_eq_some.mpr (.inr ⟨hp.none_of_append hnone, ih.shrinks hab hn⟩)
    · rcases firstOf_cons_eq_some.mp ha with ha | ⟨hnone, ha⟩
      · obtain ⟨m, hm, hle⟩ := hp.grows b ha
        exact ⟨m, firstOf_cons_eq_some.mpr (.inl hm), hle⟩
      · -- an earlier pattern that matches only in the whole text matches beyond the first part
        cases hab : p (a ++ b) with
        | none =>
          obtain ⟨m, hm, hle⟩ := ih.grows b ha
          exact ⟨m, firstOf_cons_eq_some.mpr (.inr ⟨hab, hm⟩), hle⟩
        | some m =>
          refine ⟨m, firstOf_cons_eq_some.mpr (.inl hab), ?_⟩
          have hle := ih.bounded ha
          by_contra hlt
          have hsome := hp.shrinks hab (by omega)
          rw [hnone] at hsome
          cases hsome

theorem firstOf_pair_local (hp : p.Local) (hq : q.Local) : (firstOf [p, q]).Local :=
  firstOf_local (by simp [hp, hq])

/-- A choice stays the same if the earlier pattern does not come to match where the later one
did. -/
theorem firstOf_staysBefore {C : Char → Prop} {ps : List Pattern} (hp : p.StaysBefore C)
    (hps : (firstOf ps).StaysBefore C)
    (hnone : ∀ a b n c v, p a = none → firstOf ps a = some n → a.drop n = c :: v → C c →
      p (a ++ b) = none) :
    (firstOf (p :: ps)).StaysBefore C := by
  intro a b n c v ha hdrop hc
  rcases firstOf_cons_eq_some.mp ha with ha | ⟨hfirst, ha⟩
  · exact firstOf_cons_eq_some.mpr (.inl (hp a b n c v ha hdrop hc))
  · exact firstOf_cons_eq_some.mpr
      (.inr ⟨hnone a b n c v hfirst ha hdrop hc, hps a b n c v ha hdrop hc⟩)

theorem firstOf_singleton (p : Pattern) : firstOf [p] = p := by
  funext cs
  exact Option.or_none

/-- The first of two patterns stays the same if each does and the first one is not made to match. -/
theorem firstOf_pair_staysBefore {C : Char → Prop} (hp : p.StaysBefore C) (hq : q.StaysBefore C)
    (hnone : ∀ a b n c v, p a = none → q a = some n → a.drop n = c :: v → C c → p (a ++ b) = none) :
    (firstOf [p, q]).StaysBefore C := by
  rw [← firstOf_singleton q] at hq
  refine firstOf_staysBefore hp hq fun a b n c v ha hn => ?_
  rw [firstOf_singleton] at hn
  exact hnone a b n c v ha hn

/-- A class of characters is tried first: whether it matches is seen from the first character. -/
theorem firstOf_char_staysBefore {C : Char → Prop} {ps : List Pattern}
    (hps : (firstOf ps).StaysBefore C) :
    (firstOf (char f :: ps)).StaysBefore C := by
  refine firstOf_staysBefore (char_fixed f).firm.staysBefore hps fun a b n c v ha _ hdrop _ => ?_
  cases a with
  | nil => simp at hdrop
  | cons d a => exact ha

theorem optional_eq (p : Pattern) : optional p = firstOf [p, concat []] := by
  funext cs
  unfold optional firstOf
  cases p cs <;> rfl

theorem optional_local (hp : p.Local) : (optional p).Local := by
  have hnothing : (concat []).Local := by
    refine ⟨fun ha => ?_, fun hab _ => hab, fun b n ha => ⟨n, ha, Nat.le_refl n⟩⟩
    cases ha
    exact Nat.zero_le _
  rw [optional_eq]
  exact firstOf_pair_local hp hnothing

theorem optional_char_firm (f : Char → Bool) : (optional (char f)).Firm := by
  have hnothing : (firstOf [concat []]).Firm := by
    rw [firstOf_singleton]
    exact fun _ _ _ ha _ => ha
  rw [optional_eq]
  exact (firstOf_char_staysBefore hnothing.staysBefore).firm

/-! ### Repetition -/

/-- Repetitions go no further than the text. -/
theorem countRepeats_le (p : Pattern) (ahead : Nat) (a : List Char) :
    countRepeats p ahead a ≤ a.length := by
  fun_induction countRepeats p ahead a with
  | case1 => exact Nat.zero_le _
  | case2 ahead c a ih => exact Nat.succ_le_succ ih
  | case3 c a n hmatch ih => exact Nat.succ_le_succ ih
  | case4 c a hmatch => exact Nat.zero_le _

/-- The match under way is counted. -/
theorem le_countRepeats (p : Pattern) (ahead : Nat) (a : List Char) (h : ahead ≤ a.length) :
    ahead ≤ countRepeats p ahead a := by
  fun_induction countRepeats p ahead a with
  | case1 ahead => exact h
  | case2 ahead c a ih => exact Nat.succ_le_succ (ih (Nat.le_of_succ_le_succ h))
  | case3 c a n hmatch ih => exact Nat.zero_le _
  | case4 c a hmatch => exact Nat.zero_le _

/-- A repetition that matches is counted, and so are those behind it. -/
theorem countRepeats_of_match {c : Char} {a : List Char} {n : Nat} (h : p (c :: a) = some (n + 1)) :
    countRepeats p 0 (c :: a) = countRepeats p n a + 1 := by
  rw [countRepeats, h]

/-- Where a pattern does not match there is no repetition. -/
theorem countRepeats_of_no_match {c : Char} {a : List Char} (h : ∀ n, p (c :: a) ≠ some (n + 1)) :
    countRepeats p 0 (c :: a) = 0 := by
  rw [countRepeats]
  split
  · rename_i n hn
    exact absurd hn (h n)
  · rfl

/-- A match is counted with all of its characters. -/
theorem Local.lt_countRepeats (hp : p.Local) {c : Char} {a : List Char} {n : Nat}
    (h : p (c :: a) = some (n + 1)) : n < countRepeats p 0 (c :: a) := by
  rw [countRepeats_of_match h]
  exact Nat.lt_succ_of_le (le_countRepeats p n a (Nat.le_of_succ_le_succ (hp.bounded h)))

/-- Repeating a local pattern is local. -/
theorem many_local (hp : p.Local) : (many p).Local where
  bounded {a n} ha := by
    cases ha
    exact countRepeats_le p 0 a
  shrinks {a b n} hab hn := by
    cases hab
    have hcount (ahead : Nat) (a : List Char) : countRepeats p ahead (a ++ b) ≤ a.length →
        countRepeats p ahead a = countRepeats p ahead (a ++ b) := by
      fun_induction countRepeats p ahead a with
      | case1 ahead => exact fun h => (Nat.le_zero.mp h).symm
      | case2 ahead c a ih => exact fun h => congrArg (· + 1) (ih (Nat.le_of_succ_le_succ h))
      | case3 c a n hmatch ih =>
        intro h
        rw [List.cons_append] at h ⊢
        rcases hp.same_or_beyond b hmatch with hsame | ⟨m, hm, hlt⟩
        · rw [List.cons_append] at hsame
          rw [countRepeats_of_match hsame] at h ⊢
          exact congrArg (· + 1) (ih (Nat.le_of_succ_le_succ h))
        · obtain ⟨m, rfl⟩ : ∃ m', m = m' + 1 := ⟨m - 1, by omega⟩
          rw [List.cons_append] at hm
          have hcounted := hp.lt_countRepeats hm
          omega
      | case4 c a hmatch =>
        intro h
        rw [List.cons_append] at h ⊢
        refine (countRepeats_of_no_match fun n hn => ?_).symm
        have hcounted := hp.lt_countRepeats hn
        exact hmatch n (hp.shrinks hn (by omega))
    exact congrArg some (hcount 0 a hn)
  grows {a} b {n} ha := by
    cases ha
    refine ⟨_, rfl, ?_⟩
    have hcount (ahead : Nat) (a : List Char) :
        countRepeats p ahead a ≤ countRepeats p ahead (a ++ b) := by
      fun_induction countRepeats p ahead a with
      | case1 ahead => exact Nat.zero_le _
      | case2 ahead c a ih => exact Nat.succ_le_succ ih
      | case3 c a n hmatch ih =>
        have hle := countRepeats_le p n a
        rw [List.cons_append]
        rcases hp.same_or_beyond b hmatch with hsame | ⟨m, hm, hlt⟩
        · rw [List.cons_append] at hsame
          rw [countRepeats_of_match hsame]
          exact Nat.succ_le_succ ih
        · obtain ⟨m, rfl⟩ : ∃ m', m = m' + 1 := ⟨m - 1, by omega⟩
          rw [List.cons_append] at hm
          have hcounted := hp.lt_countRepeats hm
          rw [List.length_cons] at hlt
          omega
      | case4 c a hmatch => exact Nat.zero_le _
    exact hcount 0 a

theorem many_ne_none (p : Pattern) (cs : List Char) : many p cs ≠ none := nofun

/-- Repeating a local pattern at least once is local. -/
theorem many1_local (hp : p.Local) : (many1 p).Local :=
  seq_local_of_total hp (many_local hp) (many_ne_none p)

/-- Before a character with which it cannot go on, a repetition stays the same. -/
theorem many_staysBefore {C : Char → Prop} (hp : p.Local) (hfirm : p.Firm)
    (hC : ∀ c, C c → ∀ w, p (c :: w) = none) : (many p).StaysBefore C := by
  intro a b n c v ha hdrop hc
  cases ha
  have hcount (ahead : Nat) (a : List Char) : ahead ≤ a.length →
      a.drop (countRepeats p ahead a) = c :: v →
      countRepeats p ahead (a ++ b) = countRepeats p ahead a := by
    fun_induction countRepeats p ahead a with
    | case1 ahead => exact fun _ h => by simp at h
    | case2 ahead d a ih =>
      exact fun hle h => congrArg (· + 1) (ih (Nat.le_of_succ_le_succ hle) h)
    | case3 d a n hmatch ih =>
      intro _ h
      rw [List.drop_succ_cons] at h
      have hle : n ≤ a.length := Nat.le_of_succ_le_succ (hp.bounded hmatch)
      have hlt := lt_length_of_drop h
      have hcounted := le_countRepeats p n a hle
      have hsame := hfirm _ b _ hmatch (by rw [List.length_cons]; omega)
      rw [List.cons_append] at hsame ⊢
      rw [countRepeats_of_match hsame, ih hle h]
    | case4 d a hmatch =>
      intro _ h
      obtain ⟨rfl, rfl⟩ := List.cons.inj h
      refine countRepeats_of_no_match fun n hn => ?_
      rw [hC d hc] at hn
      cases hn
  exact congrArg some (hcount 0 a (Nat.zero_le _) hdrop)

end Pattern

end LessCss
