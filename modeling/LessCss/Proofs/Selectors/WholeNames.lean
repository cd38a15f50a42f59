import Mathlib.Data.List.Infix
import LessCss.Compile

/-!
# Where a target is replaced

The target of a clause with `all` is looked for from the left, matches do not overlap, and of the
matches those are replaced that are whole names (`Extension.replaceWhole?_exact`).  The places of
matches are chosen before it is asked which of them are whole (`Extension.FromLeft`).  So a whole
name is missed where a match that is not whole overlaps it from the left; only then does the choice
differ from one among the whole names alone, and never for a target that does not overlap itself
(`Extension.OccursAt.not_overlap`).
-/

namespace LessCss

namespace Extension

/-! ## Places from the left -/

/-- Places with a property, chosen from the left: stretches of the given length from them do not
overlap, and a place with the property is left out only if it lies in such a stretch. -/
structure FromLeft (len : Nat) (P : Nat → Prop) (places : List Nat) : Prop where
  sound : ∀ p ∈ places, P p
  apart : places.Pairwise fun p q => p + len ≤ q
  greedy : ∀ i, P i → ∃ p ∈ places, p ≤ i ∧ i < p + len

namespace FromLeft

variable {len : Nat} {P : Nat → Prop} {places places' : List Nat}

/-- Places chosen from the left are none only if no place has the property. -/
theorem eq_nil_iff (h : FromLeft len P places) : places = [] ↔ ∀ i, ¬ P i := by
  constructor
  · rintro rfl i hi
    obtain ⟨p, hp, _⟩ := h.greedy i hi
    exact absurd hp List.not_mem_nil
  · intro hnone
    exact List.eq_nil_iff_forall_not_mem.mpr fun p hp => hnone p (h.sound p hp)

theorem congr {Q : Nat → Prop} (h : FromLeft len P places) (hPQ : ∀ i, P i ↔ Q i) :
    FromLeft len Q places := by
  rwa [show P = Q from funext fun i => propext (hPQ i)] at h

/-- The least place with a property comes first, and then those behind its stretch. -/
theorem cons {p : Nat} (hp : P p) (hleast : ∀ i, P i → p ≤ i)
    (h : FromLeft len (fun i => P i ∧ p + len ≤ i) places) : FromLeft len P (p :: places) := by
  refine ⟨List.forall_mem_cons.mpr ⟨hp, fun q hq => (h.sound q hq).1⟩,
    List.pairwise_cons.mpr ⟨fun q hq => (h.sound q hq).2, h.apart⟩, fun i hi => ?_⟩
  by_cases hip : i < p + len
  · exact ⟨p, List.mem_cons_self, hleast i hi, hip⟩
  · obtain ⟨q, hq, hqi⟩ := h.greedy i ⟨hi, Nat.not_lt.mp hip⟩
    exact ⟨q, List.mem_cons_of_mem p hq, hqi⟩

/-- After the first place the choice goes on behind its stretch. -/
theorem tail {p : Nat} (h : FromLeft len P (p :: places)) :
    FromLeft len (fun i => P i ∧ p + len ≤ i) places := by
  obtain ⟨hbehind, hapart⟩ := List.pairwise_cons.mp h.apart
  refine ⟨fun q hq => ⟨h.sound q (List.mem_cons_of_mem p hq), hbehind q hq⟩, hapart, ?_⟩
  rintro i ⟨hi, hpi⟩
  obtain ⟨q, hq, hqi⟩ := h.greedy i hi
  rcases List.mem_cons.mp hq with rfl | hq
  · exact absurd hqi.2 (Nat.not_lt.mpr hpi)
  · exact ⟨q, hq, hqi⟩

/-- The first place is the least one with the property. -/
theorem head_le {p i : Nat} (h : FromLeft len P (p :: places)) (hi : P i) : p ≤ i := by
  obtain ⟨q, hq, hqi⟩ := h.greedy i hi
  rcases List.mem_cons.mp hq with rfl | hq
  · exact hqi.1
  · have hpq := (List.pairwise_cons.mp h.apart).1 q hq
    omega

/-- There is no other choice. -/
theorem unique (h : FromLeft len P places) (h' : FromLeft len P places') : places = places' := by
  induction places generalizing places' P with
  | nil => exact (h'.eq_nil_iff.mpr (h.eq_nil_iff.mp rfl)).symm
  | cons p places ih =>
    cases places' with
    | nil => exact absurd (h.sound p List.mem_cons_self) (h'.eq_nil_iff.mp rfl p)
    | cons q places' =>
      obtain rfl : p = q :=
        Nat.le_antisymm (h.head_le (h'.sound q List.mem_cons_self))
          (h'.head_le (h.sound p List.mem_cons_self))
      rw [ih h.tail h'.tail]

/-- A place lies in one stretch at most. -/
theorem eq_of_within (h : FromLeft len P places) {i p q : Nat} (hp : p ∈ places) (hq : q ∈ places)
    (hpi : p ≤ i ∧ i < p + len) (hqi : q ≤ i ∧ i < q + len) : p = q := by
  have hapart := List.pairwise_iff_getElem.mp h.apart
  obtain ⟨a, ha, rfl⟩ := List.getElem_of_mem hp
  obtain ⟨b, hb, rfl⟩ := List.getElem_of_mem hq
  rcases Nat.lt_trichotomy a b with hab | rfl | hab
  · have := hapart a b ha hb hab
    omega
  · rfl
  · have := hapart b a hb ha hab
    omega

section Filter

variable (h : FromLeft len P places) (q : Nat → Bool)
include h

/-- **Asking afterwards for one more property.**  This is a choice among the places that have both
properties just if none of these lies in the stretch of a place without the second one. -/
theorem filter_iff : FromLeft len (fun i => P i ∧ q i) (places.filter q) ↔
    ∀ i, P i ∧ q i → ¬ ∃ p ∈ places, ¬ q p ∧ p ≤ i ∧ i < p + len := by
  constructor
  · rintro hfilter i hi ⟨p, hp, hqp, hpi⟩
    obtain ⟨r, hr, hri⟩ := hfilter.greedy i hi
    obtain ⟨hmem, hqr⟩ := List.mem_filter.mp hr
    exact hqp (h.eq_of_within hmem hp hri hpi ▸ hqr)
  · intro hclear
    refine ⟨fun p hp => ?_, h.apart.filter q, fun i hi => ?_⟩
    · obtain ⟨hmem, hqp⟩ := List.mem_filter.mp hp
      exact ⟨h.sound p hmem, hqp⟩
    · obtain ⟨p, hp, hpi⟩ := h.greedy i hi.1
      have hqp : q p := not_not.mp fun hqp => hclear i hi ⟨p, hp, hqp, hpi⟩
      exact ⟨p, List.mem_filter.mpr ⟨hp, hqp⟩, hpi⟩

/-- Nothing is left just if all places that have both properties lie in such stretches. -/
theorem filter_eq_nil_iff : places.filter q = [] ↔
    ∀ i, P i ∧ q i → ∃ p ∈ places, ¬ q p ∧ p ≤ i ∧ i < p + len := by
  rw [List.filter_eq_nil_iff]
  constructor
  · intro hnone i hi
    obtain ⟨p, hp, hpi⟩ := h.greedy i hi.1
    exact ⟨p, hp, hnone p hp, hpi⟩
  · intro hcovered p hp hqp
    obtain ⟨r, hr, hqr, hrp⟩ := hcovered p ⟨h.sound p hp, hqp⟩
    have hpp : p < p + len := by omega
    exact hqr (h.eq_of_within hr hp hrp ⟨Nat.le_refl p, hpp⟩ ▸ hqp)

end Filter

end FromLeft

/-! ## The places of a target in a text -/

section Places

variable (target text : List Char)

/-- The target stands at a place of the text. -/
def OccursAt (i : Nat) : Prop := target <+: text.drop i

/-- What stands at a place of the text, as long as the target, is a whole name for all that is
around it. -/
def wholeAt (i : Nat) : Bool :=
  isWhole target (text.take i).getLast? (text.drop (i + target.length)).head?

/-- The target stands at a place of the text as a whole name. -/
def OccursWhole (i : Nat) : Prop := OccursAt target text i ∧ wholeAt target text i

/-- The target stands as a whole name at a place that lies in a match which is not whole. -/
def Missed (found : List Nat) (i : Nat) : Prop :=
  OccursWhole target text i ∧ ∃ p ∈ found, ¬ wholeAt target text p ∧ p ≤ i ∧ i < p + target.length

instance (i : Nat) : Decidable (OccursAt target text i) :=
  inferInstanceAs (Decidable (target <+: _))

instance (i : Nat) : Decidable (OccursWhole target text i) := inferInstanceAs (Decidable (_ ∧ _))

/-- The places of matches in a text from the place `start` on, the first characters of which are
passed over. -/
def matchesFrom : (start ahead : Nat) → List Char → List Nat
  | _, _, [] => []
  | start, k + 1, _ :: cs => matchesFrom (start + 1) k cs
  | start, 0, c :: cs =>
    if target.isPrefixOf (c :: cs) then start :: matchesFrom (start + 1) (target.length - 1) cs
    else matchesFrom (start + 1) 0 cs

/-- The text from the place `start` on, with the replacement for the stretches at some places. -/
def replaceAt (replacement : List Char) : (start : Nat) → List Nat → List Char
  | start, [] => text.drop start
  | start, p :: places =>
    text.extract start p ++ replacement ++ replaceAt replacement (p + target.length) places

variable {target text}

/-- A target of which no proper start is an end does not overlap itself. -/
theorem OccursAt.not_overlap
    (hborder : ∀ part, part ≠ [] → part ≠ target → part <+: target → ¬ part <:+ target) {p i : Nat}
    (hp : OccursAt target text p) (hi : OccursAt target text i) (hpi : p < i) :
    p + target.length ≤ i := by
  by_contra hlt
  -- the end of the first match from the second place on is a start of the second match
  have hend : target.drop (i - p) <+: text.drop i := by
    have := hp.drop (i - p)
    rwa [List.drop_drop, Nat.add_sub_cancel' hpi.le] at this
  have hstart : target.drop (i - p) <+: target :=
    List.prefix_of_prefix_length_le hend hi (by rw [List.length_drop]; omega)
  refine hborder _ ?_ ?_ hstart (List.drop_suffix _ _)
  · rw [ne_eq, List.drop_eq_nil_iff]
    omega
  · intro heq
    have := congrArg List.length heq
    rw [List.length_drop] at this
    omega

/-- A character before all places is kept. -/
theorem replaceAt_cons (target replacement : List Char) {pre cs : List Char} {c : Char}
    (htext : text = pre ++ c :: cs) {places : List Nat}
    (hplaces : ∀ p ∈ places, pre.length + 1 ≤ p) :
    replaceAt target text replacement pre.length places =
      c :: replaceAt target text replacement (pre.length + 1) places := by
  have hdrop : text.drop pre.length = c :: text.drop (pre.length + 1) := by
    rw [htext, List.drop_left, ← List.drop_drop, List.drop_left]
    rfl
  cases places with
  | nil => exact hdrop
  | cons p places =>
    have hp := hplaces p List.mem_cons_self
    rw [replaceAt, replaceAt, List.extract_eq_take_drop, hdrop,
      show p - pre.length = p - (pre.length + 1) + 1 by omega]
    rfl

section Run

variable (htarget : target ≠ []) (pre cs : List Char) (ahead : Nat) (htext : text = pre ++ cs)
include htarget htext

/-- The matches from a place on are chosen from the left. -/
theorem fromLeft_matchesFrom :
    FromLeft target.length (fun i => OccursAt target text i ∧ pre.length + ahead ≤ i)
    (matchesFrom target pre.length ahead cs) := by
  have hlength : 0 < target.length := List.length_pos_iff.mpr htarget
  induction cs generalizing pre ahead with
  | nil =>
    refine ⟨List.forall_mem_nil _, List.Pairwise.nil, ?_⟩
    rintro i ⟨hi, hle⟩
    rw [OccursAt, htext, List.append_nil, List.drop_eq_nil_of_le (by omega)] at hi
    exact absurd (List.prefix_nil.mp hi) htarget
  | cons c cs ih =>
    have hstep (k : Nat) :=
      ih (pre ++ [c]) k (by rw [htext, List.append_assoc, List.singleton_append])
    simp only [List.length_append, List.length_singleton] at hstep
    cases ahead with
    | succ k => exact (hstep k).congr fun i => by rw [Nat.add_assoc, Nat.add_comm 1]
    | zero =>
      have hoccurs : target.isPrefixOf (c :: cs) = true ↔ OccursAt target text pre.length := by
        rw [OccursAt, htext, List.drop_left, List.isPrefixOf_iff_prefix]
      rw [matchesFrom]
      split
      · next hhere =>
        refine .cons ⟨hoccurs.mp hhere, Nat.le_refl _⟩ (fun i hi => hi.2)
          ((hstep _).congr fun i => ?_)
        rw [and_assoc]
        exact and_congr_right fun _ => by omega
      · next hhere =>
        refine (hstep 0).congr fun i => and_congr_right fun hi => ?_
        have hne : i ≠ pre.length := fun heq => hhere (hoccurs.mpr (heq ▸ hi))
        omega

/-- **One run over a text** replaces the matches that are whole. -/
theorem replaceFrom_eq (replacement : List Char) (keep : Bool) :
    replaceFrom target replacement pre.getLast? ahead keep cs =
      let places := (matchesFrom target pre.length ahead cs).filter (wholeAt target text)
      (!places.isEmpty,
        replaceAt target text replacement (if keep then pre.length else pre.length + ahead)
          places) := by
  have hlength : 0 < target.length := List.length_pos_iff.mpr htarget
  induction cs generalizing pre ahead keep with
  | nil =>
    have hempty : text.drop (if keep then pre.length else pre.length + ahead) = [] := by
      rw [htext, List.append_nil]
      exact List.drop_eq_nil_of_le (by split <;> omega)
    simp [replaceFrom, matchesFrom, replaceAt, hempty]
  | cons c cs ih =>
    have htext' : text = (pre ++ [c]) ++ cs := by
      rw [htext, List.append_assoc, List.singleton_append]
    have hstep (k : Nat) (keep : Bool) := ih (pre ++ [c]) k htext' keep
    have hbehind (k : Nat) :
        ∀ p ∈ (matchesFrom target (pre.length + 1) k cs).filter (wholeAt target text),
        pre.length + 1 ≤ p := by
      intro p hp
      have hsound := ((fromLeft_matchesFrom htarget (pre ++ [c]) cs k htext').sound p
        (by simpa using List.mem_of_mem_filter hp)).2
      simp at hsound
      omega
    have hkept (k : Nat) := replaceAt_cons target replacement htext (hbehind k)
    simp only [List.length_append, List.length_singleton, List.getLast?_concat] at hstep
    cases ahead with
    | succ k =>
      rw [replaceFrom, hstep, matchesFrom]
      cases keep with
      | true => simp only [if_true, hkept]
      | false => simp only [Bool.false_eq_true, if_false, Nat.add_assoc, Nat.add_comm 1]
    | zero =>
      have hwhole : isWhole target pre.getLast? ((c :: cs).drop target.length).head? =
          wholeAt target text pre.length := by
        rw [wholeAt, htext, List.take_left, ← List.drop_drop, List.drop_left]
      have hstart : (if keep then pre.length else pre.length + 0) = pre.length := by
        cases keep <;> rfl
      rw [replaceFrom, hstart, matchesFrom]
      split
      · rw [hwhole]
        split
        · next hhere =>
          have hend : pre.length + 1 + (target.length - 1) = pre.length + target.length := by omega
          rw [hstep, List.filter_cons_of_pos hhere]
          simp [replaceAt, hend]
        · next hhere =>
          rw [hstep, List.filter_cons_of_neg hhere]
          simp only [if_true, hkept]
      · rw [hstep]
        simp only [if_true, hkept]

end Run

end Places

/-! ## Replacing whole names -/

/-- Only a target that overlaps itself can be missed. -/
theorem not_missed {target text : List Char} {found : List Nat}
    (hfound : ∀ p ∈ found, OccursAt target text p)
    (hborder : ∀ part, part ≠ [] → part ≠ target → part <+: target → ¬ part <:+ target) (i : Nat) :
    ¬ Missed target text found i := by
  rintro ⟨⟨hi, hwhole⟩, p, hp, hnot, hpi, hip⟩
  rcases hpi.eq_or_lt with rfl | hlt
  · exact hnot hwhole
  · have := (hfound p hp).not_overlap hborder hi hlt
    omega

/-- The matches in the whole text that are whole are replaced. -/
theorem replaceWhole?_eq {text target replacement : String} (hne : target ≠ "") :
    replaceWhole? text target replacement =
      let replaced :=
  (matchesFrom target.toList 0 0 text.toList).filter (wholeAt target.toList text.toList)
      if replaced = [] then none
      else some
        (String.ofList (replaceAt target.toList text.toList replacement.toList 0 replaced)) := by
  have htarget : target.toList ≠ [] := fun h => hne (String.toList_eq_nil_iff.mp h)
  have hrun := replaceFrom_eq htarget [] text.toList 0 (List.nil_append text.toList).symm
    replacement.toList true
  rw [List.getLast?_nil, List.length_nil] at hrun
  rw [replaceWhole?, if_neg (by simpa using hne), hrun]
  cases (matchesFrom target.toList 0 0 text.toList).filter
    (wholeAt target.toList text.toList) <;> rfl

/-- **Replacing a target where it is a whole name.**  Nothing is done about an empty target.  For
any other one the matches are chosen from the left, which can be done in one way only, and those
that are whole are replaced; all the rest of the text is copied.  They are the ones chosen from the
left among the whole names just if no whole name is missed, and nothing is replaced just if all
whole names are missed.  A target that does not overlap itself is never missed. -/
theorem replaceWhole?_exact (text target replacement : String) :
    (target = "" → replaceWhole? text target replacement = none) ∧
    (target ≠ "" → ∃ found,
      FromLeft target.toList.length (OccursAt target.toList text.toList) found ∧
      (∀ places, FromLeft target.toList.length (OccursAt target.toList text.toList) places →
        places = found) ∧
      let replaced := found.filter (wholeAt target.toList text.toList)
      replaceWhole? text target replacement =
        (if replaced = [] then none
          else some
            (String.ofList (replaceAt target.toList text.toList replacement.toList 0 replaced))) ∧
      (FromLeft target.toList.length (OccursWhole target.toList text.toList) replaced ↔
        ∀ i, ¬ Missed target.toList text.toList found i) ∧
      (replaceWhole? text target replacement = none ↔
        ∀ i, OccursWhole target.toList text.toList i → Missed target.toList text.toList found i) ∧
      ((∀ part, part ≠ [] → part ≠ target.toList → part <+: target.toList →
        ¬ part <:+ target.toList) →
        ∀ i, ¬ Missed target.toList text.toList found i)) := by
  refine ⟨fun hempty => by rw [hempty]; rfl, fun hne => ?_⟩
  have htarget : target.toList ≠ [] := fun h => hne (String.toList_eq_nil_iff.mp h)
  have hchoice :=
    (fromLeft_matchesFrom htarget [] text.toList 0 (List.nil_append text.toList).symm).congr
    fun i => and_iff_left (Nat.zero_le i)
  refine ⟨_, hchoice, fun places h => h.unique hchoice, replaceWhole?_eq hne, ?_, ?_,
    not_missed hchoice.sound⟩
  · simp only [Missed, not_and]
    exact hchoice.filter_iff _
  · rw [replaceWhole?_eq hne, ite_eq_left_iff]
    simp only [reduceCtorEq, imp_false, not_not, Missed]
    exact (hchoice.filter_eq_nil_iff _).trans (forall₂_congr fun i hi => (and_iff_right hi).symm)

/-- The second of two overlapping matches is a whole name, and it is missed. -/
theorem replaceWhole?_misses :
    OccursWhole ".ab.a".toList ".ab.ab.a".toList 3 ∧ replaceWhole? ".ab.ab.a" ".ab.a" ".x" = none ∧
    (compile {} ".ab.ab.a \x7b c: d; \x7d .x:extend(.ab.a all) \x7b \x7d").toOption =
      some ".ab.ab.a \x7b\n  c: d;\n\x7d" := by
  refine ⟨by decide, by decide, by decide +kernel⟩

end Extension

end LessCss
