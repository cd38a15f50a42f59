import Mathlib.Data.List.DropRight
import LessCss.Proofs.Writing.Strings

/-!
# Collapsed texts

A text is collapsed (`Text.Collapsed`) if no blank stands at either end of it and each blank before
which no quote is open is a space without a blank in front of it.  These are just the texts that
collapsing leaves as they are (`Text.collapse_eq_self_iff`), and every text is made one of them, by
nothing but changes to its blanks (`Text.collapse_normal`).

The blanks at the ends go last, and at the end that may cut into a quote that is never closed.  It
does no harm: what is left is a first part of the text, and before a character of it the same quotes
are open as in the whole text.
-/

namespace LessCss.Text

/-! ## What is left of a text -/

/-- The characters of a text that are no blanks. -/
def ink (cs : List Char) : List Char := cs.filter fun c => !isBlank c

theorem ink_cons_of_isBlank {c : Char} (hc : isBlank c = true) (cs : List Char) :
    ink (c :: cs) = ink cs :=
  List.filter_cons_of_neg (by simp [hc])

/-- Collapsing runs of blanks leaves all other characters. -/
theorem ink_collapseRuns (quote : Option Char) (afterSpace : Bool) (cs : List Char) :
    ink (collapseRuns quote afterSpace cs) = ink cs := by
  induction cs generalizing quote afterSpace with
  | nil => rfl
  | cons c cs ih =>
    rw [collapseRuns_cons]
    split
    · next hblank =>
      rw [ink_cons_of_isBlank hblank.2]
      split
      · exact ih none true
      · exact (ink_cons_of_isBlank rfl _).trans (ih none true)
    · rw [ink, ink, List.filter_cons, List.filter_cons, ← ink, ← ink, ih]

theorem ink_trimStart (cs : List Char) : ink (trimStart cs) = ink cs := by
  induction cs with
  | nil => rfl
  | cons c cs ih =>
    by_cases hc : isBlank c = true
    · rw [trimStart, List.dropWhile_cons_of_pos hc, ← trimStart, ih, ink_cons_of_isBlank hc]
    · rw [trimStart, List.dropWhile_cons_of_neg hc]

theorem ink_trimEnd (cs : List Char) : ink (trimEnd cs) = ink cs := by
  have hreverse (ds : List Char) : ink ds.reverse = (ink ds).reverse := List.filter_reverse
  have htrim := ink_trimStart cs.reverse
  rw [trimEnd, hreverse, ← trimStart, htrim, hreverse, List.reverse_reverse]

/-! ## Texts in which blanks are single spaces -/

/-- What has been collapsed is not changed by collapsing it again. -/
theorem collapseRuns_collapseRuns (quote : Option Char) (afterSpace : Bool) (cs : List Char) :
    collapseRuns quote afterSpace (collapseRuns quote afterSpace cs) =
      collapseRuns quote afterSpace cs := by
  induction cs generalizing quote afterSpace with
  | nil => rfl
  | cons c cs ih =>
    rw [collapseRuns_cons]
    by_cases hblank : quote = none ∧ isBlank c = true
    · rw [if_pos hblank]
      obtain ⟨rfl, -⟩ := hblank
      cases afterSpace with
      | true => exact ih none true
      | false =>
        simp only [Bool.false_eq_true, if_false]
        rw [collapseRuns_cons, if_pos ⟨rfl, rfl⟩, if_neg Bool.false_ne_true, ih none true]
    · rw [if_neg hblank, collapseRuns_cons, if_neg hblank, ih]

/-- Collapsing leaves a text as it is just if its blanks are sheltered. -/
theorem collapseRuns_eq_self_iff_shelters {cs : List Char} :
    collapseRuns none false cs = cs ↔ Shelters [] cs :=
  collapseRuns_eq_self_iff (by simp) false cs

namespace Shelters

variable {c : Char} {cs : List Char}

/-- Without a blank at the start, the blanks behind it are still single. -/
theorem of_cons (hc : isBlank c = true) (h : Shelters [] (c :: cs)) : Shelters [] cs := by
  intro u d v hu hd hopen
  have hopen' : openQuote none ([] ++ c :: u) = none := by
    rw [List.nil_append, openQuote_cons, openAfter_of_isBlank (by simp) hc]
    exact hopen
  obtain ⟨hspace, hsingle⟩ := h (c :: u) d v (by rw [hu, List.cons_append]) hd hopen'
  cases u with
  | nil => exact ⟨hspace, rfl⟩
  | cons e u => exact ⟨hspace, hsingle⟩

/-- Trimming the start of a text leaves its blanks sheltered. -/
theorem trimStart (h : Shelters [] cs) : Shelters [] (trimStart cs) := by
  induction cs with
  | nil => exact h
  | cons c cs ih =>
    by_cases hc : isBlank c = true
    · rw [Text.trimStart, List.dropWhile_cons_of_pos hc]
      exact ih (h.of_cons hc)
    · rwa [Text.trimStart, List.dropWhile_cons_of_neg hc]

/-- Before a character of a first part, the same quotes are open as in the whole text. -/
theorem of_prefix {a : List Char} (ha : a <+: cs) (h : Shelters [] cs) : Shelters [] a := by
  obtain ⟨b, rfl⟩ := ha
  intro u d v hu hd hopen
  exact h u d (v ++ b) (by rw [hu, List.append_assoc, List.cons_append]) hd hopen

/-- No blank stands behind a blank before which no quote is open. -/
theorem behind {u v : List Char} (h : Shelters [] (u ++ c :: v)) (hopen : openQuote none u = none)
    (hc : isBlank c = true) : c = ' ' ∧ ∀ d ∈ v.head?, isBlank d = false := by
  refine ⟨(h u c v rfl hc hopen).1, fun d hd => Bool.eq_false_iff.mpr fun hblank => ?_⟩
  obtain ⟨w, rfl⟩ := List.head?_eq_some_iff.mp hd
  have hopen' : openQuote none ([] ++ (u ++ [c])) = none := by
    rw [List.nil_append, openQuote_append, hopen, openQuote_cons, openAfter_of_isBlank (by simp) hc,
      openQuote_nil]
  have hends : endsBlank false (u ++ [c]) = false := (h (u ++ [c]) d w (by simp) hblank hopen').2
  rw [endsBlank, List.foldl_append, List.foldl_cons, List.foldl_nil, hc] at hends
  cases hends

end Shelters

/-! ## The normal form -/

/-- A text without blanks at its ends, in which each blank outside of quotes is a space without a
blank in front. -/
structure Collapsed (cs : List Char) : Prop where
  start : ∀ c ∈ cs.head?, isBlank c = false
  stop : ∀ c ∈ cs.getLast?, isBlank c = false
  sheltered : Shelters [] cs

/-- No blank is left at the start. -/
theorem trimStart_start (cs : List Char) : ∀ c ∈ (trimStart cs).head?, isBlank c = false := by
  intro c hc
  have hstop := List.head?_dropWhile_not isBlank cs
  rw [trimStart] at hc
  rw [Option.mem_def.mp hc] at hstop
  simpa using hstop

/-- No blank is left at the end. -/
theorem trimEnd_stop (cs : List Char) : ∀ c ∈ (trimEnd cs).getLast?, isBlank c = false := by
  intro c hc
  rw [trimEnd, List.getLast?_reverse] at hc
  exact trimStart_start cs.reverse c hc

theorem trimEnd_prefix (cs : List Char) : trimEnd cs <+: cs := List.rdropWhile_prefix isBlank cs

/-- What is collapsed has no blanks to collapse. -/
theorem collapsed_collapse (s : String) : Collapsed (collapse s).toList := by
  have hsheltered : Shelters [] (collapseRuns none false s.toList) :=
    collapseRuns_eq_self_iff_shelters.mp (collapseRuns_collapseRuns none false s.toList)
  rw [collapse, String.toList_ofList]
  generalize collapseRuns none false s.toList = cs at hsheltered
  have htrimmed := trimEnd_prefix (trimStart cs)
  refine ⟨fun c hc => trimStart_start cs c ?_, trimEnd_stop _,
    hsheltered.trimStart.of_prefix htrimmed⟩
  obtain ⟨rest, hrest⟩ := htrimmed
  rw [← hrest, List.head?_append, Option.mem_def.mp hc]
  rfl

/-- **Collapsing leaves a text as it is just if it is collapsed.** -/
theorem collapse_eq_self_iff (s : String) : collapse s = s ↔ Collapsed s.toList := by
  refine ⟨fun h => h ▸ collapsed_collapse s, fun h => ?_⟩
  have hstart : trimStart s.toList = s.toList := by
    cases hs : s.toList with
    | nil => rfl
    | cons c cs => exact List.dropWhile_cons_of_neg (by simp [h.start c (by simp [hs])])
  have hstop : trimEnd s.toList = s.toList :=
    List.rdropWhile_eq_self_iff.mpr fun hne => by
      simp [h.stop _ (List.getLast?_eq_some_getLast hne)]
  rw [collapse, collapseRuns_eq_self_iff_shelters.mpr h.sheltered, hstart, hstop,
    String.ofList_toList]

/-- **Collapsing makes a normal form.**  The characters other than blanks stay in their order; no
blank is left at either end; a blank before which no quote is open is a space with no further blank
behind it; and what is collapsed already stays as it is. -/
theorem collapse_normal (s : String) :
    ink (collapse s).toList = ink s.toList ∧
      (∀ c ∈ (collapse s).toList.head?, isBlank c = false) ∧
      (∀ c ∈ (collapse s).toList.getLast?, isBlank c = false) ∧
      (∀ u c v, (collapse s).toList = u ++ c :: v → openQuote none u = none → isBlank c = true →
        c = ' ' ∧ ∀ d ∈ v.head?, isBlank d = false) ∧
      collapse (collapse s) = collapse s := by
  have hcollapsed := collapsed_collapse s
  have hink : ink (collapse s).toList = ink s.toList := by
    rw [collapse, String.toList_ofList, ink_trimEnd, ink_trimStart, ink_collapseRuns]
  refine ⟨hink, hcollapsed.start, hcollapsed.stop, fun u c v h hopen hc => ?_,
    (collapse_eq_self_iff _).mpr hcollapsed⟩
  exact (h ▸ hcollapsed.sheltered).behind hopen hc

/-- Trimming cuts into a quote that is not closed. -/
example : collapse "\u00a0a \t'b  c' \x22d \n " = "a 'b  c' \x22d" := by decide +kernel

end LessCss.Text
