import Mathlib.Data.Nat.Find
import LessCss.Proofs.Grammar.Derivation

/-!
# The choice between alternatives

The starts of the alternatives of a phrase are worked out once, when the starts of all phrases are
known.  As these are exact, so are those: an alternative is taken to start with a kind of token if
and only if a derivation from it does (`Grammar.contains_ofSymbols_iff`).  The start of a phrase is
then that of its alternatives together, because one more step of the analysis would change nothing.

Before alternatives are counted, a flag is looked at that was worked out from pairs of them.  It
hides nothing: if no two alternatives have any start in common, then no kind is the start of two
(`Choice.isAmbiguous_iff`).
-/

namespace LessCss

theorem KindSet.intersects_of_contains {s t : KindSet} {k : Kind} (hs : s.contains k = true)
    (ht : t.contains k = true) : s.intersects t = true := by
  have hboth : (s.bits &&& t.bits).getLsbD k.index = true := by
    rw [BitVec.getLsbD_and, Bool.and_eq_true]
    exact ⟨hs, ht⟩
  rw [intersects, bne_iff_ne]
  intro hzero
  simp [hzero] at hboth

/-! ## Pairs of alternatives -/

namespace Choice

/-- At most one item of a list passes a test if no two items do. -/
theorem countP_le_one_iff {α : Type} (p : α → Bool) (items : List α) :
    items.countP p ≤ 1 ↔ items.Pairwise fun a b => ¬ (p a = true ∧ p b = true) := by
  induction items with
  | nil => simp
  | cons a items ih =>
    rw [List.pairwise_cons, ← ih]
    by_cases ha : p a = true
    · have hnone : items.countP p = 0 ↔ ∀ b ∈ items, ¬ (p a = true ∧ p b = true) := by
        simp [List.countP_eq_zero, ha]
      rw [List.countP_cons_of_pos ha, ← hnone]
      omega
    · have hnone : ∀ b ∈ items, ¬ (p a = true ∧ p b = true) := fun b _ hab => ha hab.1
      rw [List.countP_cons_of_neg ha, and_iff_right hnone]

/-- That no two alternatives overlap is tested pair by pair. -/
theorem anyOverlap_eq_false_iff (starts : List KindSet) :
    anyOverlap starts = false ↔ starts.Pairwise fun s t => t.intersects s = false := by
  induction starts with
  | nil => simp [anyOverlap]
  | cons s later ih => simp [anyOverlap, List.pairwise_cons, ih]

/-- A choice is ambiguous for a kind if and only if two of the alternatives may start with it: the
flag is set whenever that is so. -/
theorem isAmbiguous_iff (starts : List KindSet) (k : Kind) :
    (ofStarts starts).isAmbiguous k = true ↔
      ¬ starts.Pairwise fun s t => ¬ (s.contains k = true ∧ t.contains k = true) := by
  have hcount := countP_le_one_iff (·.contains k) starts
  rw [← hcount, isAmbiguous, Bool.and_eq_true, decide_eq_true_eq, Nat.not_le]
  refine and_iff_right_of_imp fun hmany => ?_
  by_contra hflag
  have hapart := (anyOverlap_eq_false_iff starts).mp (eq_false_of_ne_true hflag)
  refine absurd (hcount.mpr (hapart.imp fun hst hboth => ?_)) (Nat.not_le.mpr hmany)
  rw [KindSet.intersects_of_contains hboth.2 hboth.1] at hst
  cases hst

end Choice

/-! ## Exact starts -/

namespace Grammar

variable {definitions : List (Phrase × List (List Sym))}

/-- A derivation leads from a sequence of symbols to one with a token of a kind in front. -/
def CanStart (definitions : List (Phrase × List (List Sym))) (k : Kind) (form : List Sym) : Prop :=
  ∃ rest, Derives definitions form (.token k :: rest)

/-- The alternative of a phrase with a given number can start with a kind. -/
def AlternativeStarts (definitions : List (Phrase × List (List Sym))) (p : Phrase) (k : Kind)
    (i : Nat) : Prop :=
  ∃ a, ((ofDefinitions definitions).alternatives p)[i]? = some a ∧ CanStart definitions k a

/-- With the facts about phrases that the analysis finds, the start of any sequence of symbols is
exact. -/
theorem contains_ofSymbols_iff (k : Kind) (form : List Sym) :
    (StartFacts.ofSymbols (ofDefinitions definitions).facts.get form).first.contains k = true ↔
      CanStart definitions k form := by
  constructor
  · exact ((sound_facts definitions).ofSymbols form).1 k
  · rintro ⟨rest, hrest⟩
    exact contains_of_derives (step_facts _) hrest

/-- A phrase starts as one of its alternatives does. -/
theorem contains_facts_iff (p : Phrase) (k : Kind) :
    ((ofDefinitions definitions).facts.get p).first.contains k = true ↔
      ∃ i, AlternativeStarts definitions p k i := by
  rw [← step_facts, get_step, (StartFacts.ofAlternatives_iff _ _).1 k]
  constructor
  · rintro ⟨a, ha, hk⟩
    obtain ⟨i, hi⟩ := List.mem_iff_getElem?.mp ha
    exact ⟨i, a, hi, (contains_ofSymbols_iff k a).mp hk⟩
  · rintro ⟨i, a, hi, hk⟩
    exact ⟨a, List.mem_of_getElem? hi, (contains_ofSymbols_iff k a).mpr hk⟩

end Grammar

namespace Prediction

open Grammar

variable {definitions : List (Phrase × List (List Sym))}

/-- The choice between the alternatives of a phrase, with the starts that were worked out for
them. -/
theorem choices_ofGrammar (g : Grammar) (p : Phrase) :
    (ofGrammar g).choices.get p =
      .ofStarts ((g.alternatives p).map fun a => (StartFacts.ofSymbols g.facts.get a).first) := by
  rw [ofGrammar, Phrase.Table.get_tabulate]

/-- The first alternative that can start with a kind is chosen. -/
theorem choose?_eq_some_iff (p : Phrase) (k : Kind) (i : Nat) :
    (ofGrammar (ofDefinitions definitions)).choose? p k = some i ↔
      AlternativeStarts definitions p k i ∧ ∀ j < i, ¬ AlternativeStarts definitions p k j := by
  rw [choose?, choices_ofGrammar, Choice.index?, Choice.ofStarts, List.findIdx?_map,
    List.findIdx?_eq_some_iff_getElem]
  simp only [Function.comp_apply, contains_ofSymbols_iff]
  constructor
  · rintro ⟨hi, hstarts, hearlier⟩
    refine ⟨⟨_, List.getElem?_eq_getElem hi, hstarts⟩, ?_⟩
    rintro j hj ⟨a, ha, hcan⟩
    obtain ⟨_, rfl⟩ := List.getElem?_eq_some_iff.mp ha
    exact hearlier j hj hcan
  · rintro ⟨⟨a, ha, hcan⟩, hearlier⟩
    obtain ⟨hi, rfl⟩ := List.getElem?_eq_some_iff.mp ha
    refine ⟨hi, hcan, fun j hj hstarts => hearlier j hj ⟨_, ?_, hstarts⟩⟩
    exact List.getElem?_eq_getElem (Nat.lt_trans hj hi)

/-- Some alternative is chosen if there is one that can start with a kind. -/
theorem isSome_choose?_iff (p : Phrase) (k : Kind) :
    ((ofGrammar (ofDefinitions definitions)).choose? p k).isSome = true ↔
      ∃ i, AlternativeStarts definitions p k i := by
  classical
  rw [Option.isSome_iff_exists]
  simp only [choose?_eq_some_iff]
  constructor
  · exact fun ⟨i, hi, _⟩ => ⟨i, hi⟩
  · exact fun h => ⟨Nat.find h, Nat.find_spec h, fun _ hj => Nat.find_min h hj⟩

/-- A choice is ambiguous if two alternatives can start with a kind. -/
theorem isAmbiguous_iff (p : Phrase) (k : Kind) :
    (ofGrammar (ofDefinitions definitions)).isAmbiguous p k = true ↔
      ∃ i j, i < j ∧ AlternativeStarts definitions p k i ∧ AlternativeStarts definitions p k j := by
  rw [isAmbiguous, choices_ofGrammar, Choice.isAmbiguous_iff, List.pairwise_map,
    List.pairwise_iff_getElem]
  simp only [contains_ofSymbols_iff]
  push Not
  constructor
  · rintro ⟨i, j, hi, hj, hij, hcan, hcan'⟩
    exact ⟨i, j, hij, ⟨_, List.getElem?_eq_getElem hi, hcan⟩,
      ⟨_, List.getElem?_eq_getElem hj, hcan'⟩⟩
  · rintro ⟨i, j, hij, ⟨a, ha, hcan⟩, ⟨b, hb, hcan'⟩⟩
    obtain ⟨hi, rfl⟩ := List.getElem?_eq_some_iff.mp ha
    obtain ⟨hj, rfl⟩ := List.getElem?_eq_some_iff.mp hb
    exact ⟨i, j, hi, hj, hij, hcan, hcan'⟩

/-- **The choice between alternatives is exact**, whatever the definitions.  An alternative of a
phrase is chosen for a kind of token if and only if the phrase may start with it; it is the first
one from which a derivation leads to a token of that kind in front; and the choice is said to be
ambiguous if and only if there are two such alternatives. -/
theorem choose?_ofDefinitions (definitions : List (Phrase × List (List Sym))) (p : Phrase)
    (k : Kind) :
    let t := ofGrammar (ofDefinitions definitions)
    ((t.choose? p k).isSome = true ↔ (t.first p).contains k = true) ∧
      (∀ i, t.choose? p k = some i ↔
        AlternativeStarts definitions p k i ∧ ∀ j < i, ¬ AlternativeStarts definitions p k j) ∧
      (t.isAmbiguous p k = true ↔
        ∃ i j, i < j ∧ AlternativeStarts definitions p k i ∧
          AlternativeStarts definitions p k j) := by
  intro t
  refine ⟨?_, choose?_eq_some_iff p k, isAmbiguous_iff p k⟩
  rw [isSome_choose?_iff, first_ofGrammar, contains_facts_iff]

end Prediction

end LessCss
