import Mathlib.Algebra.BigOperators.Field
import Mathlib.Algebra.BigOperators.Group.Finset.Basic
import Mathlib.Tactic.NormNum
import LessCss.Proofs.Units.Conversions

/-!
# Conversions keep the quantity

A number stands for a quantity together with its unit: for itself times what its atomic units are
worth, each to the power of its exponent (`Units.worth`).  A conversion scales the number while it
replaces the units, by factors that are rounded when they are binary numbers.  Here the same
scalings are carried out in a field, in which the atomic units may be worth anything but zero
(`Family.valuedBy`), and then they make up for the replaced units exactly: the quantity is kept,
round by round (`Units.quotient_convertFamily`) and so by the whole conversion
(`Units.scaled_mul_worth`).

With what is known about the exponents this is all that a conversion does
(`Dimension.convert_keeps_quantity`).
-/

namespace LessCss

/-- The factors of units, if each atomic unit of a family is worth some given number. -/
def Family.valuedBy {K : Type} (worth : String → K) (f : Family) (a : String) : Option K :=
  (f.factor? a).map fun _ => worth a

/-- A number as it is scaled while its unit is converted. -/
def Units.scaled {α : Type} [Mul α] [Div α] (factor : Family → String → Option α) (c : Conversion)
    (u : Units) (x : α) : α :=
  (u.convert factor c).2.foldl (fun x s => s.apply x) x

variable {K : Type} [Field K]

/-! ## Scaling in a field -/

namespace Scaling

/-- What a scaling multiplies by. -/
def ratio (s : Scaling K) : K := if s.below then (s.worth / s.target)⁻¹ else s.worth / s.target

theorem apply_eq (s : Scaling K) (x : K) : s.apply x = x * s.ratio := by
  unfold apply ratio
  split
  · rw [div_eq_mul_inv]
  · rfl

/-- Several scalings multiply by the product of their ratios. -/
theorem foldl_apply (ss : List (Scaling K)) (x : K) :
    ss.foldl (fun x s => s.apply x) x = x * (ss.map ratio).prod := by
  induction ss generalizing x with
  | nil => simp
  | cons s ss ih => rw [List.foldl_cons, ih, apply_eq, List.map_cons, List.prod_cons, mul_assoc]

end Scaling

/-! ## What a unit is worth -/

/-- What an atomic unit contributes: its worth if it belongs to a family, and otherwise nothing. -/
def Family.weight (worth : String → K) (a : String) : K :=
  if (Family.of? a).isSome then worth a else 1

namespace Units

/-- The product of what the atomic units of families are worth, each to the power of its
exponent. -/
def worth (w : String → K) (u : Units) : K :=
  ∏ a ∈ u.atoms.toFinset with (Family.of? a).isSome, w a ^ u.exponent a

/-- The product of what stands above over the product of what stands below. -/
def quotient (w : String → K) (u : Units) : K :=
  (u.numerator.map w).prod / (u.denominator.map w).prod

variable {w : String → K} {u v : Units}

theorem prod_map_ne_zero (hw : ∀ a, w a ≠ 0) (atoms : List String) : (atoms.map w).prod ≠ 0 :=
  List.prod_ne_zero fun hzero => by
    obtain ⟨a, -, ha⟩ := List.mem_map.mp hzero
    exact hw a ha

theorem prod_map_eq {s : Finset String} {atoms : List String} (hs : ∀ a ∈ atoms, a ∈ s) :
    (atoms.map w).prod = ∏ a ∈ s, w a ^ atoms.count a := by
  rw [Finset.prod_list_map_count]
  refine Finset.prod_subset (fun a ha => hs a (List.mem_toFinset.mp ha)) fun a _ ha => ?_
  rw [List.count_eq_zero_of_not_mem fun h => ha (List.mem_toFinset.mpr h), pow_zero]

/-- A quotient is the product of powers of what atomic units contribute, by their exponents. -/
theorem quotient_eq (hw : ∀ a, w a ≠ 0) :
    u.quotient w = ∏ a ∈ u.atoms.toFinset, w a ^ u.exponent a := by
  have habove := prod_map_eq (w := w) fun a (h : a ∈ u.numerator) =>
    List.mem_toFinset.mpr (u.mem_atoms.mpr (.inl h))
  have hbelow := prod_map_eq (w := w) fun a (h : a ∈ u.denominator) =>
    List.mem_toFinset.mpr (u.mem_atoms.mpr (.inr h))
  rw [quotient, habove, hbelow, ← Finset.prod_div_distrib]
  refine Finset.prod_congr rfl fun a _ => ?_
  rw [exponent, zpow_sub₀ (hw a), zpow_natCast, zpow_natCast]

/-- The quotient hangs on the exponents alone. -/
theorem quotient_congr (hw : ∀ a, w a ≠ 0) (h : ∀ a, u.exponent a = v.exponent a) :
    u.quotient w = v.quotient w := by
  have hcross := ((cross_perm h).map w).prod_eq
  rw [List.map_append, List.map_append, List.prod_append, List.prod_append] at hcross
  rw [quotient, quotient, div_eq_div_iff (prod_map_ne_zero hw _) (prod_map_ne_zero hw _), hcross]

variable (hworth : ∀ a, (Family.of? a).isSome → w a ≠ 0)

include hworth

theorem weight_ne_zero (a : String) : Family.weight w a ≠ 0 := by
  rw [Family.weight]
  split
  · rename_i ha
    exact hworth a ha
  · exact one_ne_zero

/-- The worth of a unit is the quotient of what its atomic units contribute. -/
theorem worth_eq : u.worth w = u.quotient (Family.weight w) := by
  rw [quotient_eq (weight_ne_zero hworth), worth, Finset.prod_filter]
  refine Finset.prod_congr rfl fun a _ => ?_
  rw [Family.weight]
  split
  · rfl
  · rw [one_zpow]

/-! ## The rounds of a conversion -/

section Round

variable {f : Family} {t : String}

omit hworth in
/-- The scalings of a list multiply by one ratio for each atomic unit of the family. -/
theorem prod_ratio (below : Bool) (atoms : List String) :
    ((atoms.filterMap fun a => (Family.valuedBy w f a).map fun x =>
      (⟨x, w t, below⟩ : Scaling K)).map
        Scaling.ratio).prod
      = (atoms.map fun a => if Family.of? a = some f then Scaling.ratio ⟨w a, w t, below⟩
        else 1).prod := by
  induction atoms with
  | nil => rfl
  | cons a atoms ih =>
    rw [List.map_cons, List.prod_cons, ← ih, List.filterMap_cons]
    cases ha : f.factor? a with
    | none =>
      have houtside : Family.of? a ≠ some f := by simp [Family.of?_eq_some_iff, ha]
      simp [Family.valuedBy, ha, houtside]
    | some x =>
      have hfamily : Family.of? a = some f := Family.of?_eq_some_iff.mpr (by rw [ha]; rfl)
      simp [Family.valuedBy, ha, hfamily]

/-- What a scaling multiplies by makes up for the atomic unit that is replaced. -/
theorem ratio_mul_weight {c : Conversion} (ht : c.target? f = some t) (a : String) :
    (if Family.of? a = some f then Scaling.ratio ⟨w a, w t, false⟩ else 1) *
    Family.weight w (c.replaceIn f a)
      = Family.weight w a := by
  by_cases ha : Family.of? a = some f
  · have hfamily := (Conversion.target?_eq_some_iff.mp ht).2
    have htarget : w t ≠ 0 := hworth t (by rw [hfamily]; rfl)
    rw [Conversion.replaceIn, if_pos ha, if_pos ha, Conversion.replace_of_target ha ht]
    simpa [Family.weight, ha, hfamily, Scaling.ratio] using div_mul_cancel₀ (w a) htarget
  · rw [Conversion.replaceIn, if_neg ha, if_neg ha, one_mul]

/-- The ratio of a scaling makes up for what the target contributes below. -/
theorem ratio_mul_weight_below {c : Conversion} (ht : c.target? f = some t) (a : String) :
    (if Family.of? a = some f then Scaling.ratio ⟨w a, w t, true⟩ else 1) * Family.weight w a
      = Family.weight w (c.replaceIn f a) := by
  have habove := ratio_mul_weight hworth ht a
  split_ifs at habove ⊢ with ha
  · have hne : Scaling.ratio ⟨w a, w t, false⟩ ≠ 0 :=
      left_ne_zero_of_mul (habove ▸ weight_ne_zero hworth a)
    rw [← habove]
    exact inv_mul_cancel_left₀ hne _
  · rw [one_mul] at habove ⊢
    exact habove.symm

/-- **One round keeps the quantity**: the scalings of the number make up for what is replaced in the
unit. -/
theorem quotient_convertFamily (c : Conversion) (u : Units) (f : Family) :
    ((convertFamily (Family.valuedBy w) c u f).2.map Scaling.ratio).prod
        * (convertFamily (Family.valuedBy w) c u f).1.quotient (Family.weight w)
      = u.quotient (Family.weight w) := by
  have hfactor : ∀ f a, (Family.valuedBy w f a).isSome = (f.factor? a).isSome :=
    fun _ _ => Option.isSome_map
  have hunit := convertFamily_fst hfactor c u f
  cases hc : c f with
  | none => simp [convertFamily, hc]
  | some t =>
    cases hvalue : Family.valuedBy w f t with
    | none => simp [convertFamily, hc, hvalue]
    | some x =>
      have hx : x = w t := by
        obtain ⟨_, -, hx⟩ := Option.map_eq_some_iff.mp hvalue
        exact hx.symm
      have hfamily : Family.of? t = some f :=
        Family.of?_eq_some_iff.mpr (by rw [← hfactor, hvalue]; rfl)
      have ht : c.target? f = some t := Conversion.target?_eq_some_iff.mpr ⟨hc, hfamily⟩
      have hscalings : (convertFamily (Family.valuedBy w) c u f).2 =
          u.scalings (Family.valuedBy w) f (w t) := by
        simp [convertFamily, hc, hvalue, hx]
      have habove := congrArg List.prod
        (List.map_congr_left fun a (_ : a ∈ u.numerator) => ratio_mul_weight hworth ht a)
      have hbelow := congrArg List.prod
        (List.map_congr_left fun a (_ : a ∈ u.denominator) => ratio_mul_weight_below hworth ht a)
      rw [List.prod_map_mul] at habove hbelow
      have hreplaced :=
        prod_map_ne_zero (fun a => weight_ne_zero hworth (c.replaceIn f a)) u.denominator
      rw [← hbelow] at hreplaced
      rw [hunit, hscalings, scalings, List.map_append, List.prod_append, prod_ratio, prod_ratio,
        quotient, quotient]
      simp only [mapAtoms, List.map_map, Function.comp_def]
      rw [← habove, ← hbelow, mul_assoc, mul_div_assoc, ← mul_div_assoc,
        mul_div_mul_left _ _ (left_ne_zero_of_mul hreplaced)]

end Round

/-- **A conversion keeps the quantity**: the number with the worth of its unit. -/
theorem scaled_mul_worth (c : Conversion) (d : Dimension) (x : K) :
    d.unit.scaled (Family.valuedBy w) c x * (d.convert c).unit.worth w = x * d.unit.worth w := by
  have hweight := weight_ne_zero hworth
  have hfactor : ∀ f a, (Family.valuedBy w f a).isSome = (f.factor? a).isSome :=
    fun _ _ => Option.isSome_map
  have hunit : (d.convert c).unit.quotient (Family.weight w)
      = (d.unit.convert (Family.valuedBy w) c).1.quotient (Family.weight w) := by
    rw [Dimension.unit_convert, convert_fst hfactor]
    exact quotient_congr hweight (exponent_cancel _)
  have hrounds : ((d.unit.convert (Family.valuedBy w) c).2.map Scaling.ratio).prod
      * (d.unit.convert (Family.valuedBy w) c).1.quotient (Family.weight w) =
        d.unit.quotient (Family.weight w) := by
    simp only [convert, Family.all, List.foldl_cons, List.foldl_nil, List.nil_append,
      List.map_append, List.prod_append, mul_assoc, quotient_convertFamily hworth]
    exact quotient_congr hweight d.unit.exponent_normalize
  rw [worth_eq hworth, worth_eq hworth, hunit, scaled, Scaling.foldl_apply, mul_assoc, hrounds]

end Units

/-! ## There and back -/

namespace Units

variable {u : Units} {a t : String} {f : Family}

theorem exponent_of_single (h : u.products = ([a], [])) (x : String) :
    u.exponent x = if x = a then 1 else 0 := by
  obtain ⟨hnumerator, hdenominator⟩ := Prod.mk.inj h
  rw [exponent, hnumerator, hdenominator, List.count_singleton, List.count_nil]
  split_ifs <;> simp_all

theorem familyExponent_of_single (h : u.products = ([a], [])) (ha : Family.of? a = some f) :
    u.familyExponent f = 1 := by
  obtain ⟨hnumerator, hdenominator⟩ := Prod.mk.inj h
  simp [familyExponent, exponentWhere, hnumerator, hdenominator, ha]

/-- A reduced unit with just one exponent, of one, is that atomic unit. -/
theorem products_of_single (h : u.IsReduced)
    (hexponent : ∀ x, u.exponent x = if x = a then 1 else 0) :
    u.products = ([a], []) := by
  let single : Units := ⟨[a], [], .none⟩
  have hsingle : single.IsReduced := ⟨List.pairwise_singleton _ _, .nil, List.disjoint_nil_right _⟩
  exact h.products_eq hsingle fun x => by rw [hexponent, exponent_of_single rfl]

/-- A single unit of a family is worth what it is said to be. -/
theorem worth_of_single {w : String → K} (hworth : ∀ a, (Family.of? a).isSome → w a ≠ 0)
    (h : u.products = ([a], [])) (ha : Family.of? a = some f) : u.worth w = w a := by
  obtain ⟨hnumerator, hdenominator⟩ := Prod.mk.inj h
  simp [worth_eq hworth, quotient, hnumerator, hdenominator, Family.weight, ha]

end Units

namespace Dimension

variable {d : Dimension} {a t : String} {f : Family}

theorem target?_single (ht : Family.of? t = some f) : (Conversion.single f t).target? f = some t :=
  Conversion.target?_eq_some_iff.mpr ⟨if_pos rfl, ht⟩

/-- Converting to one unit converts its family and no other. -/
theorem convertTo_eq (ht : Family.of? t = some f) (d : Dimension) :
    d.convertTo t = d.convert (.single f t) := by
  rw [convertTo, ht]

/-- A single unit becomes the target. -/
theorem products_convert_single (h : d.unit.products = ([a], [])) (ha : Family.of? a = some f)
    (ht : Family.of? t = some f) : (d.convert (.single f t)).unit.products = ([t], []) := by
  refine Units.products_of_single (convert_isReduced _ d) fun x => ?_
  by_cases hx : x = t
  · rw [if_pos hx, hx, exponent_convert_target (target?_single ht),
      Units.familyExponent_of_single h ha]
  · rw [if_neg hx]
    by_cases hfamily : Family.of? x = some f
    · exact exponent_convert_of_ne hfamily (target?_single ht) hx
    · have hother : ∀ g, Family.of? x = some g → (Conversion.single f t).target? g = none := by
        intro g hg
        have hne : g ≠ f := fun h => hfamily (h ▸ hg)
        simp [Conversion.target?, Conversion.single, hne]
      have hxa : x ≠ a := fun h => hfamily (h ▸ ha)
      rw [exponent_convert_of_no_target hother, Units.exponent_of_single h, if_neg hxa]

/-- **What a conversion does.**  It scales the number, round by round, and puts other units into
both lists. Carried out in a field, where each atomic unit of a family is worth something other than
zero, the scalings keep the number times the worth of its unit.  The unit that results is reduced:
atomic units of families without a target among their own, or outside of all families, keep their
exponents; of a family with a target only the target is left; and every family keeps its exponent.
Hence a number with a single unit that is converted to another one of its family, and back, is the
same again. -/
theorem convert_keeps_quantity (w : String → K) (hworth : ∀ a, (Family.of? a).isSome → w a ≠ 0)
    (c : Conversion) (d : Dimension) (x : K) :
    (d.convert c).value = d.unit.scaled Family.factor? c d.value ∧
    d.unit.scaled (Family.valuedBy w) c x * (d.convert c).unit.worth w = x * d.unit.worth w ∧
    (d.convert c).unit.IsReduced ∧
    (∀ a, (∀ f, Family.of? a = some f → c.target? f = none) →
      (d.convert c).unit.exponent a = d.unit.exponent a) ∧
    (∀ f t, c.target? f = some t → ∀ a ∈ (d.convert c).unit.atoms, Family.of? a = some f → a = t) ∧
    (∀ f, (d.convert c).unit.familyExponent f = d.unit.familyExponent f) ∧
    ∀ f a t, Family.of? a = some f → Family.of? t = some f → d.unit.products = ([a], []) →
      d.convertTo t = d.convert (.single f t) ∧ (d.convertTo t).unit.products = ([t], []) ∧
      (d.convertTo t).convertTo a = (d.convertTo t).convert (.single f a) ∧
      ((d.convertTo t).convertTo a).unit.products = ([a], []) ∧
      (d.convertTo t).unit.scaled (Family.valuedBy w) (.single f a)
        (d.unit.scaled (Family.valuedBy w) (.single f t) x) = x := by
  refine ⟨rfl, Units.scaled_mul_worth hworth c d x, convert_isReduced c d,
    fun a => exponent_convert_of_no_target, fun f t ht a => eq_of_mem_convert ht,
      familyExponent_convert, ?_⟩
  intro f a t ha ht hsingle
  have hthere : (d.convertTo t).unit.products = ([t], []) := by
    rw [convertTo_eq ht]
    exact products_convert_single hsingle ha ht
  have hback : ((d.convertTo t).convertTo a).unit.products = ([a], []) := by
    rw [convertTo_eq ha]
    exact products_convert_single hthere ht ha
  refine ⟨convertTo_eq ht d, hthere, convertTo_eq ha _, hback, ?_⟩
  have hto := Units.scaled_mul_worth hworth (.single f t) d x
  have hfrom := Units.scaled_mul_worth hworth (.single f a) (d.convertTo t)
    (d.unit.scaled (Family.valuedBy w) (.single f t) x)
  rw [← convertTo_eq ht, Units.worth_of_single hworth hthere ht,
    Units.worth_of_single hworth hsingle ha] at hto
  rw [← convertTo_eq ha, Units.worth_of_single hworth hback ha,
    Units.worth_of_single hworth hthere ht, hto] at hfrom
  exact mul_right_cancel₀ (hworth a (by rw [ha]; rfl)) hfrom

/-- Six centimeters and milliseconds per millimeter are sixty milliseconds, once all lengths are
inches; pixels are no durations. -/
theorem convert_keeps_quantity_compound :
    let c : Conversion := fun
      | .length => some "in"
      | .duration => some "px"
      | .angle => none
    let d : Dimension := ⟨6, ⟨["cm", "ms"], ["mm"], none⟩⟩
    let w : String → ℚ := fun a => if a = "cm" then 1 / 100 else if a = "mm" then 1 / 1000 else 1
    (∀ a, (Family.of? a).isSome → w a ≠ 0) ∧ (d.convert c).unit.products = (["ms"], []) ∧
      d.unit.scaled (Family.valuedBy w) c 6 = 60 := by
  intro c d w
  have hworth : ∀ a, (Family.of? a).isSome → w a ≠ 0 := fun a _ => by
    simp only [w]
    split_ifs <;> norm_num
  obtain ⟨-, hquantity, hreduced, -⟩ := convert_keeps_quantity w hworth c d 6
  have hproducts : (d.convert c).unit.products = (["ms"], []) := by
    refine Units.products_of_single hreduced fun x => ?_
    have hcm : c.replace "cm" = "in" := rfl
    have hmm : c.replace "mm" = "in" := rfl
    have hms : c.replace "ms" = "ms" := rfl
    rw [Units.exponent_eq, exponentWhere_convert]
    simp only [d, Units.exponentWhere, List.countP_cons, List.countP_nil, Function.comp_apply,
      hcm, hmm, hms, beq_iff_eq, eq_comm (a := x)]
    split_ifs <;> rfl
  have hafter : (d.convert c).unit.worth w = 1 :=
    Units.worth_of_single hworth hproducts (f := .duration) rfl
  have hbefore : d.unit.worth w = 10 := by
    have hcm : Family.weight w "cm" = 1 / 100 := rfl
    have hmm : Family.weight w "mm" = 1 / 1000 := rfl
    have hms : Family.weight w "ms" = 1 := rfl
    rw [Units.worth_eq hworth]
    norm_num [Units.quotient, d, hcm, hmm, hms]
  rw [hafter, hbefore, mul_one] at hquantity
  exact ⟨hworth, hproducts, by rw [hquantity]; norm_num⟩

end Dimension

end LessCss
