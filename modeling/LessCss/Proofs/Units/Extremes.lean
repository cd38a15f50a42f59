import LessCss.Evaluation
import Mathlib.Data.List.Induction
import Mathlib.Data.List.Pairwise
import LessCss.Proofs.Units.Comparing

/-!
# The least and the greatest of some numbers

`min` and `max` go through their arguments once and compare each with the best of those before it.
A call is to be kept if two of the arguments do not compare, so that one comparison for each
argument has to speak for all pairs.

It does as long as to compare is transitive, and that fails in one way only: a number without unit
compares with any other, and two numbers that compare with it need not compare with each other
(`Dimension.Comparable.trans`).  A call that is kept has always got a reason for it.  Where all
numbers have units, or all numbers with units compare, the converse holds as well, and the order of
the arguments does not matter (`Evaluation.extremumOf_eq_none_iff`). Otherwise a number without unit
may hide what does not compare (`Evaluation.extremumOf_hides_incomparable`).
-/

namespace LessCss

/-! ## Undefined numbers -/

namespace Scaling

open Float.Model

variable {x : Float}

theorem unpack_eq_of_isNaN (h : x.isNaN = true) : x.toModel.unpack = .notANumber := by
  change x.toModel.unpack.isNaN = true at h
  cases hx : x.toModel.unpack with
  | notANumber => rfl
  | infinity | zero | finite => rw [hx] at h; cases h

theorem isNaN_pack : (pack .notANumber).isNaN = true := by
  decide +kernel

theorem isNaN_mul (h : x.isNaN = true) (y : Float) : (x * y).isNaN = true := by
  change (pack (UnpackedFloat.mul .binary64 x.toModel.unpack y.toModel.unpack)).isNaN = true
  rw [unpack_eq_of_isNaN h]
  exact isNaN_pack

theorem isNaN_div (h : x.isNaN = true) (y : Float) : (x / y).isNaN = true := by
  change (pack (UnpackedFloat.div .binary64 x.toModel.unpack y.toModel.unpack)).isNaN = true
  rw [unpack_eq_of_isNaN h]
  exact isNaN_pack

theorem isNaN_apply (h : x.isNaN = true) (s : Scaling Float) : (s.apply x).isNaN = true := by
  rw [apply]
  split_ifs
  · exact isNaN_div h _
  · exact isNaN_mul h _

/-- What is not a number is not made one by scaling. -/
theorem isNaN_foldl (scalings : List (Scaling Float)) (h : x.isNaN = true) :
    (scalings.foldl (fun x s => s.apply x) x).isNaN = true := by
  induction scalings generalizing x with
  | nil => exact h
  | cons s scalings ih => exact ih (isNaN_apply h s)

end Scaling

/-! ## Comparable numbers -/

namespace Dimension

variable {a b c : Dimension}

/-- Two numbers are in some order. -/
def Comparable (a b : Dimension) : Prop := (compare? a b).isSome

/-- A number that is defined in canonical units is defined. -/
theorem isNaN_of_unify (h : a.unify.value.isNaN = false) : a.value.isNaN = false := by
  by_contra hvalue
  rw [Bool.not_eq_false] at hvalue
  have hunify : a.unify.value.isNaN = true := Scaling.isNaN_foldl _ hvalue
  exact absurd (h.symm.trans hunify) Bool.false_ne_true

namespace Comparable

/-- Numbers of which one has no unit compare by their values. -/
theorem plain_iff (h : a.unit.isEmpty = true ∨ b.unit.isEmpty = true) :
    Comparable a b ↔ a.value.isNaN = false ∧ b.value.isNaN = false := by
  rw [Comparable, compare?, if_pos (Bool.or_eq_true_iff.mpr h)]
  exact isSome_compareFloat_iff

/-- Numbers with units compare in canonical units, if these are the same. -/
theorem united_iff (ha : a.unit.isEmpty = false) (hb : b.unit.isEmpty = false) :
    Comparable a b ↔
      a.unify.unit.text = b.unify.unit.text ∧ a.unify.value.isNaN = false ∧
      b.unify.value.isNaN = false := by
  rw [Comparable, compare?, ha, hb, ← isSome_compareFloat_iff]
  by_cases htext : a.unify.unit.text = b.unify.unit.text <;> simp [htext]

/-- Numbers that compare are defined. -/
theorem defined (h : Comparable a b) : a.value.isNaN = false ∧ b.value.isNaN = false := by
  by_cases hplain : a.unit.isEmpty = true ∨ b.unit.isEmpty = true
  · exact (plain_iff hplain).mp h
  · rw [not_or, Bool.not_eq_true, Bool.not_eq_true] at hplain
    obtain ⟨-, ha, hb⟩ := (united_iff hplain.1 hplain.2).mp h
    exact ⟨isNaN_of_unify ha, isNaN_of_unify hb⟩

/-- Comparing does not depend on which number comes first. -/
theorem symm (h : Comparable a b) : Comparable b a := by
  by_cases hplain : a.unit.isEmpty = true ∨ b.unit.isEmpty = true
  · exact (plain_iff hplain.symm).mpr (h.defined.symm)
  · rw [not_or, Bool.not_eq_true, Bool.not_eq_true] at hplain
    obtain ⟨htext, hvalues⟩ := (united_iff hplain.1 hplain.2).mp h
    exact (united_iff hplain.2 hplain.1).mpr ⟨htext.symm, hvalues.symm⟩

/-- To compare is transitive, unless two numbers with units compare with one that has none. -/
theorem trans (hunits : b.unit.isEmpty = true → a.unit.isEmpty = true ∨ c.unit.isEmpty = true)
    (hab : Comparable a b) (hbc : Comparable b c) : Comparable a c := by
  by_cases hplain : a.unit.isEmpty = true ∨ c.unit.isEmpty = true
  · exact (plain_iff hplain).mpr ⟨hab.defined.1, hbc.defined.2⟩
  · have hb : b.unit.isEmpty = false := Bool.not_eq_true _ ▸ mt hunits hplain
    rw [not_or, Bool.not_eq_true, Bool.not_eq_true] at hplain
    obtain ⟨hleft, ha, -⟩ := (united_iff hplain.1 hb).mp hab
    obtain ⟨hright, -, hc⟩ := (united_iff hb hplain.2).mp hbc
    exact (united_iff hplain.1 hplain.2).mpr ⟨hleft.trans hright, ha, hc⟩

instance : Std.Symm Comparable := ⟨fun _ _ => symm⟩

end Comparable

/-- All numbers have units, or all numbers with units compare. -/
def Aligned (ds : List Dimension) : Prop :=
  (∃ d ∈ ds, d.unit.isEmpty = true) →
    ds.Pairwise fun a b => a.unit.isEmpty = false → b.unit.isEmpty = false → Comparable a b

end Dimension

/-! ## One comparison for each number -/

namespace Evaluation

open Dimension (Comparable Aligned)

variable {wanted : Ordering} {ds : List Dimension} {d best : Dimension}

/-- The extremum of a row with one more number is the better of the two. -/
theorem extremum_concat (hne : ds ≠ []) :
    extremum wanted (ds ++ [d]) = (extremum wanted ds).bind fun best =>
      (d.compare? best).map fun order => if order == wanted then d else best := by
  obtain ⟨first, rest, rfl⟩ := List.exists_cons_of_ne_nil hne
  rw [List.cons_append, extremum, extremum, List.foldlM_append]
  simp only [List.foldlM_cons, List.foldlM_nil]
  exact congrArg _ (funext fun best => bind_pure _)

/-- The extremum is one of the numbers. -/
theorem mem_of_extremum (h : extremum wanted ds = some best) : best ∈ ds := by
  induction ds using List.reverseRecOn generalizing best with
  | nil => cases h
  | append_singleton ds d ih =>
    by_cases hfirst : ds = []
    · subst hfirst
      exact List.mem_singleton.mpr (Option.some.inj h).symm
    · rw [extremum_concat hfirst, Option.bind_eq_some_iff] at h
      obtain ⟨before, hbefore, h⟩ := h
      obtain ⟨order, -, rfl⟩ := Option.map_eq_some_iff.mp h
      rw [List.mem_append, List.mem_singleton]
      split_ifs
      · exact .inr rfl
      · exact .inl (ih hbefore)

/-- Another number is let in just if it compares with the best of those before. -/
theorem isSome_extremum_concat (hne : ds ≠ []) :
    (extremum wanted (ds ++ [d])).isSome ↔
    ∃ best, extremum wanted ds = some best ∧ Comparable d best := by
  rw [extremum_concat hne, Option.isSome_bind, Option.any_eq_true]
  simp only [Option.isSome_map, Comparable]

/-- Among numbers of which all pairs compare there is a best one. -/
theorem isSome_extremum_of_pairwise (hne : ds ≠ []) (h : ds.Pairwise Comparable) :
    (extremum wanted ds).isSome := by
  induction ds using List.reverseRecOn with
  | nil => exact absurd rfl hne
  | append_singleton ds d ih =>
    obtain ⟨hbefore, -, hlast⟩ := List.pairwise_append.mp h
    by_cases hfirst : ds = []
    · subst hfirst
      rfl
    · obtain ⟨best, hbest⟩ := Option.isSome_iff_exists.mp (ih hfirst hbefore)
      have hd : Comparable best d :=
        hlast best (mem_of_extremum hbest) d (List.mem_singleton_self d)
      exact (isSome_extremum_concat hfirst).mpr ⟨best, hbest, hd.symm⟩

/-- Where there is a best number, all pairs compare: each new number compares with the best one of
those before, and through it with all of them. -/
theorem pairwise_of_isSome_extremum (haligned : Aligned ds) (h : (extremum wanted ds).isSome) :
    ds.Pairwise Comparable := by
  induction ds using List.reverseRecOn with
  | nil => exact .nil
  | append_singleton ds d ih =>
    by_cases hfirst : ds = []
    · subst hfirst
      exact List.pairwise_singleton _ _
    · obtain ⟨best, hbest, hd⟩ := (isSome_extremum_concat hfirst).mp h
      have hmem := mem_of_extremum hbest
      have hinit : Aligned ds := fun ⟨x, hx, hplain⟩ =>
        (List.pairwise_append.mp (haligned ⟨x, List.mem_append_left _ hx, hplain⟩)).1
      have hbefore := ih hinit (Option.isSome_of_eq_some hbest)
      refine List.pairwise_append.mpr ⟨hbefore, List.pairwise_singleton _ _, fun x hx y hy => ?_⟩
      rw [List.mem_singleton.mp hy]
      by_cases heq : x = best
      · exact heq ▸ hd.symm
      · have hx_best : Comparable x best := hbefore.forall hx hmem heq
        by_cases hunits : best.unit.isEmpty = true ∧ x.unit.isEmpty = false ∧ d.unit.isEmpty = false
        · -- the best one says nothing on these two, but they are aligned
          obtain ⟨hbest_plain, hx_unit, hd_unit⟩ := hunits
          have hall := haligned ⟨best, List.mem_append_left _ hmem, hbest_plain⟩
          exact (List.pairwise_append.mp hall).2.2 x hx d (List.mem_singleton_self d)
            hx_unit hd_unit
        · refine hx_best.trans (fun hplain => ?_) hd.symm
          by_contra hboth
          rw [not_or, Bool.not_eq_true, Bool.not_eq_true] at hboth
          exact hunits ⟨hplain, hboth⟩

/-! ## Calls that are kept -/

/-- The numbers among some values. -/
def numbers (args : List Node) : List Dimension := args.filterMap Node.dimension?

/-- What keeps a call: it has no arguments, one that is not a number, or two that do not compare. -/
def Unfit (args : List Node) : Prop :=
  args = [] ∨ (∃ a ∈ args, a.dimension? = none) ∨ ¬ (numbers args).Pairwise Comparable

variable {args others : List Node}

/-- Whether a call has to be kept does not depend on the order of its arguments. -/
theorem unfit_of_perm (h : others.Perm args) : Unfit others ↔ Unfit args := by
  have hnumbers : (numbers others).Perm (numbers args) := h.filterMap _
  rw [Unfit, Unfit, ← List.length_eq_zero_iff, h.length_eq, List.length_eq_zero_iff,
    hnumbers.pairwise_iff Comparable.symm]
  simp only [h.mem_iff]

theorem aligned_of_perm (hperm : others.Perm args) (h : Aligned (numbers args)) :
    Aligned (numbers others) := by
  intro ⟨d, hd, hplain⟩
  have hnumbers : (numbers others).Perm (numbers args) := hperm.filterMap _
  have hall := h ⟨d, hnumbers.mem_iff.mp hd, hplain⟩
  exact (hnumbers.pairwise_iff fun hab hb ha => (hab ha hb).symm).mpr hall

/-- If all arguments are numbers, they are read as such. -/
theorem mapM_dimension? (h : ∀ a ∈ args, a.dimension? ≠ none) :
    args.mapM Node.dimension? = some (numbers args) := by
  induction args with
  | nil => rfl
  | cons a args ih =>
    obtain ⟨ha, hargs⟩ := List.forall_mem_cons.mp h
    obtain ⟨d, hd⟩ := Option.ne_none_iff_exists'.mp ha
    rw [List.mapM_cons, hd, ih hargs, numbers, numbers, List.filterMap_cons_some hd]
    rfl

theorem mapM_dimension?_eq_none (h : ∃ a ∈ args, a.dimension? = none) :
    args.mapM Node.dimension? = none := by
  induction args with
  | nil => simp at h
  | cons a args ih =>
    rw [List.mapM_cons]
    cases hd : a.dimension? with
    | none => rfl
    | some d =>
      have hargs : ∃ x ∈ args, x.dimension? = none := by simpa [hd] using h
      rw [ih hargs]
      rfl

/-- Numbers are folded into one just if there is a best one among them. -/
theorem extremumOf_eq_none (h : ∀ a ∈ args, a.dimension? ≠ none) :
    extremumOf wanted args = none ↔ extremum wanted (numbers args) = none := by
  rw [extremumOf, mapM_dimension? h]
  exact Option.map_eq_none_iff

/-- A call that is kept is unfit. -/
theorem unfit_of_extremumOf (h : extremumOf wanted args = none) : Unfit args := by
  by_contra hfit
  obtain ⟨hne, hall, hpairs⟩ : args ≠ [] ∧ (∀ a ∈ args, a.dimension? ≠ none) ∧
      (numbers args).Pairwise Comparable := by
    simpa [Unfit] using hfit
  have hnumbers : numbers args ≠ [] := by
    obtain ⟨a, ha⟩ := List.exists_mem_of_ne_nil args hne
    obtain ⟨d, hd⟩ := Option.ne_none_iff_exists'.mp (hall a ha)
    exact List.ne_nil_of_mem (List.mem_filterMap.mpr ⟨a, ha, hd⟩)
  have hbest : (extremum wanted (numbers args)).isSome :=
    isSome_extremum_of_pairwise hnumbers hpairs
  rw [(extremumOf_eq_none hall).mp h] at hbest
  cases hbest

/-- A call that has to be kept has no extremum, if its numbers are aligned. -/
theorem extremumOf_of_unfit (haligned : Aligned (numbers args)) (h : Unfit args) :
    extremumOf wanted args = none := by
  by_cases hother : ∃ a ∈ args, a.dimension? = none
  · rw [extremumOf, mapM_dimension?_eq_none hother]
    rfl
  · have hall : ∀ a ∈ args, a.dimension? ≠ none := fun a ha hnone => hother ⟨a, ha, hnone⟩
    rw [extremumOf_eq_none hall, ← Option.not_isSome_iff_eq_none]
    intro hbest
    have hpairs := pairwise_of_isSome_extremum haligned hbest
    rcases h with rfl | h | h
    · cases hbest
    · exact hother h
    · exact h hpairs

/-- **When a call of `min` or `max` is kept.**  It is kept only if it has no arguments, one that is
not a number, or two that do not compare.  Where all numbers have units, or all numbers with units
compare, it is kept in each of these cases, whatever the order of the arguments. -/
theorem extremumOf_eq_none_iff (wanted : Ordering) (args : List Node) :
    (extremumOf wanted args = none → Unfit args) ∧
      (Aligned (numbers args) → ∀ others, others.Perm args →
        (extremumOf wanted others = none ↔ Unfit args)) := by
  refine ⟨unfit_of_extremumOf, fun haligned others hperm => ⟨fun h => ?_, fun h => ?_⟩⟩
  · exact (unfit_of_perm hperm).mp (unfit_of_extremumOf h)
  · exact extremumOf_of_unfit (aligned_of_perm hperm haligned) ((unfit_of_perm hperm).mpr h)

/-- Lengths are aligned with a number that has no unit, so that a call with them is folded in any
order. -/
theorem extremumOf_eq_none_iff_lengths :
    let args : List Node :=
      [.dimension (.ofAtom 2 "px"), .dimension (.ofFloat 1), .dimension (.ofAtom 1 "cm")]
    Aligned (numbers args) ∧ ¬ Unfit args ∧ ∀ others, others.Perm args →
      extremumOf .lt others ≠ none := by
  intro args
  have hlengths : Comparable (.ofAtom 2 "px") (.ofAtom 1 "cm") := by
    unfold Comparable
    decide +kernel
  have haligned : Aligned (numbers args) := by
    intro _
    refine .cons (fun b hb => ?_)
      (.cons (fun b _ hplain => nomatch hplain) (List.pairwise_singleton _ _))
    rcases List.mem_cons.mp hb with rfl | hb
    · exact fun _ hplain => nomatch hplain
    · rw [List.mem_singleton.mp hb]
      exact fun _ _ => hlengths
  obtain ⟨hkept, hexact⟩ := extremumOf_eq_none_iff .lt args
  have hfolded : extremumOf .lt args ≠ none := by
    rw [← Option.isSome_iff_ne_none]
    decide +kernel
  have hfit : ¬ Unfit args := mt (hexact haligned args (.refl args)).mpr hfolded
  exact ⟨haligned, hfit, fun others hperm => mt (hexact haligned others hperm).mp hfit⟩

/-- A number without unit hides that pixels and seconds do not compare, though not in every
order. -/
theorem extremumOf_hides_incomparable :
    let args : List Node :=
      [.dimension (.ofAtom 2 "px"), .dimension (.ofFloat 1), .dimension (.ofAtom 1 "s")]
    let others : List Node :=
      [.dimension (.ofAtom 2 "px"), .dimension (.ofAtom 1 "s"), .dimension (.ofFloat 1)]
    Unfit args ∧ extremumOf .lt args ≠ none ∧ others.Perm args ∧ extremumOf .lt others = none := by
  intro args others
  have hincomparable : ¬ Comparable (.ofAtom 2 "px") (.ofAtom 1 "s") := by
    unfold Comparable
    decide +kernel
  refine ⟨.inr (.inr fun hpairs => ?_), ?_, .cons _ (.swap _ _ _), ?_⟩
  · exact hincomparable (List.rel_of_pairwise_cons hpairs (.tail _ (.head _)))
  · rw [← Option.isSome_iff_ne_none]
    decide +kernel
  · rw [← Option.not_isSome_iff_eq_none]
    decide +kernel

end Evaluation

end LessCss
