import LessCss.Proofs.Units.Exponents

/-!
# Units stay reduced

Striking out is what makes a unit reduced, but only products, quotients and conversions strike out.
A sum takes its unit from one of its operands as it is, or put in order, so that it has a reduced
unit only if the operands have. Hence reducedness is an invariant: the numbers that are read have
it, and all calculations keep it (`Dimension.Obtained.isReduced`).
-/

namespace LessCss

namespace Units

theorem none_isReduced : none.IsReduced := ⟨.nil, .nil, List.disjoint_nil_left _⟩

namespace IsReduced

variable {u v : Units}

/-- Reducedness is about the lists alone. -/
theorem of_products_eq (h : u.IsReduced) (hproducts : v.products = u.products) : v.IsReduced := by
  obtain ⟨hnumerator, hdenominator⟩ := Prod.mk.inj hproducts
  constructor
  · rw [hnumerator]
    exact h.numerator_sorted
  · rw [hdenominator]
    exact h.denominator_sorted
  · rw [hnumerator, hdenominator]
    exact h.apart

/-- A reduced unit is reduced when it is put in order. -/
theorem normalize (h : u.IsReduced) : u.normalize.IsReduced where
  numerator_sorted := pairwise_sorted _
  denominator_sorted := pairwise_sorted _
  apart _ habove hbelow :=
    h.apart ((sorted_perm _).mem_iff.mp habove) ((sorted_perm _).mem_iff.mp hbelow)

end IsReduced

theorem ofAtom_isReduced (atom : String) : (ofAtom atom).IsReduced := by
  rw [ofAtom]
  split
  · exact none_isReduced
  · have hsingle : (⟨[atom], [], .none⟩ : Units).IsReduced :=
      ⟨List.pairwise_singleton _ _, .nil, List.disjoint_nil_right _⟩
    exact hsingle.normalize

end Units

namespace Dimension

/-! ## One step -/

/-- A text is read as a number with a single unit, or with none. -/
theorem exists_ofAtom_of_read {text : String} {d : Dimension} (h : read text = .ok d) :
    ∃ value atom, d = ofAtom value atom := by
  unfold read at h
  split at h
  cases hvalue : Decimal.read? _ with
  | none =>
    rw [hvalue] at h
    cases h
  | some value =>
    rw [hvalue] at h
    cases h
    exact ⟨value, _, rfl⟩

/-- A number that is read has a reduced unit. -/
theorem read_isReduced {text : String} {d : Dimension} (h : read text = .ok d) :
    d.unit.IsReduced := by
  obtain ⟨value, atom, rfl⟩ := exists_ofAtom_of_read h
  exact Units.ofAtom_isReduced atom

/-- A converted number has a reduced unit. -/
theorem convert_isReduced (c : Conversion) (d : Dimension) : (d.convert c).unit.IsReduced :=
  Units.cancel_isReduced _

/-- A unit outside of all families is left as it is, and not even put in order. -/
theorem convertTo_isReduced (target : String) {d : Dimension} (h : d.unit.IsReduced) :
    (d.convertTo target).unit.IsReduced := by
  unfold convertTo
  split
  · exact convert_isReduced _ d
  · exact h

/-- A sum has the unit of its left side, or else that of its right side, put in order. -/
theorem products_combine {op : Operator} {strict : Bool} {a b d : Dimension}
    (h : combine op strict a b = .ok d) :
    d.unit.products = (if a.unit.isEmpty then b.unit else a.unit).normalize.products := by
  unfold combine at h
  split at h
  · rename_i hempty
    cases h
    rw [if_pos hempty]
    rfl
  · rename_i hempty
    rw [if_neg hempty]
    dsimp only at h
    split at h
    · cases h
      rfl
    · split at h <;> cases h
      rfl

/-- Without strict units, there are sums of all numbers. -/
theorem exists_combine (op : Operator) (a b : Dimension) : ∃ d, combine op false a b = .ok d := by
  unfold combine
  split
  · exact ⟨_, rfl⟩
  · dsimp only
    split <;> exact ⟨_, rfl⟩

/-- A sum or difference of numbers with reduced units has a reduced unit. -/
theorem combine_isReduced {op : Operator} {strict : Bool} {a b d : Dimension}
    (ha : a.unit.IsReduced) (hb : b.unit.IsReduced) (h : combine op strict a b = .ok d) :
    d.unit.IsReduced := by
  have hunit : (if a.unit.isEmpty then b.unit else a.unit).IsReduced := by
    split
    · exact hb
    · exact ha
  exact hunit.normalize.of_products_eq (products_combine h)

/-- So has every result of an operator. -/
theorem operate_isReduced {op : Operator} {strict : Bool} {a b d : Dimension}
    (ha : a.unit.IsReduced) (hb : b.unit.IsReduced) (h : operate op strict a b = .ok d) :
    d.unit.IsReduced := by
  cases op with
  | add | sub => exact combine_isReduced ha hb h
  | mul =>
    cases h
    exact Units.mul_isReduced _ _
  | div =>
    cases h
    exact Units.div_isReduced _ _

/-! ## Any number of steps -/

/-- The numbers that come out of texts, single units and plain numbers by calculating, converting
and putting units in order. -/
inductive Obtained : Dimension → Prop
  | read {text : String} {d : Dimension} (h : Dimension.read text = .ok d) : Obtained d
  | ofAtom (value : Float) (atom : String) : Obtained (.ofAtom value atom)
  | ofFloat (value : Float) : Obtained (.ofFloat value)
  | operate {op : Operator} {strict : Bool} {a b d : Dimension} (ha : Obtained a) (hb : Obtained b)
      (h : Dimension.operate op strict a b = .ok d) : Obtained d
  | convert (c : Conversion) {d : Dimension} (hd : Obtained d) : Obtained (d.convert c)
  | convertTo (target : String) {d : Dimension} (hd : Obtained d) : Obtained (d.convertTo target)
  | unify {d : Dimension} (hd : Obtained d) : Obtained d.unify
  | normalize {d : Dimension} (hd : Obtained d) : Obtained { d with unit := d.unit.normalize }

/-- **All numbers that are obtained have reduced units**: what stands above is in order, and so is
what stands below, and no atomic unit stands both above and below. -/
theorem Obtained.isReduced {d : Dimension} (h : Obtained d) : d.unit.IsReduced := by
  induction h with
  | read h => exact read_isReduced h
  | ofAtom value atom => exact Units.ofAtom_isReduced atom
  | ofFloat value => exact Units.none_isReduced
  | operate _ _ h iha ihb => exact operate_isReduced iha ihb h
  | convert c _ _ => exact convert_isReduced c _
  | convertTo target _ ih => exact convertTo_isReduced target ih
  | unify _ _ => exact convert_isReduced _ _
  | normalize _ ih => exact ih.normalize

/-- A product over a duration, to which a product of other units over another duration is added. -/
theorem Obtained.isReduced_sum :
    ∃ d : Dimension, Obtained d ∧ d.unit.products = (["em", "px"], ["s"]) ∧
    d.unit.IsReduced := by
  let left : Dimension := ⟨2 * 4 / 5, ((Units.ofAtom "px").mul (.ofAtom "em")).div (.ofAtom "s")⟩
  let right : Dimension := ⟨4 * 3 / 6, ((Units.ofAtom "em").mul (.ofAtom "cm")).div (.ofAtom "ms")⟩
  have hleft : Obtained left :=
    @operate .div true _ _ _ (@operate .mul true _ _ _ (ofAtom 2 "px") (ofAtom 4 "em") rfl)
      (ofAtom 5 "s") rfl
  have hright : Obtained right :=
    @operate .div true _ _ _ (@operate .mul true _ _ _ (ofAtom 4 "em") (ofAtom 3 "cm") rfl)
      (ofAtom 6 "ms") rfl
  obtain ⟨d, hsum⟩ := exists_combine .add left right
  have hd : Obtained d := @operate .add false _ _ _ hleft hright hsum
  let unit : Units := ⟨["em", "px"], ["s"], .none⟩
  have hunit : unit.IsReduced := ⟨by decide, by decide, by simp [unit]⟩
  have hexponent (a : String) : left.unit.exponent a = unit.exponent a := by
    rw [Units.exponent_div, Units.exponent_mul, Units.exponent_ofAtom, Units.exponent_ofAtom,
      Units.exponent_ofAtom]
    simp only [unit, Units.exponent, List.count_cons, List.count_nil, beq_iff_eq]
    split_ifs <;> simp_all
  have hleft_unit : left.unit.products = unit.products :=
    (Units.div_isReduced _ _).products_eq hunit hexponent
  have hempty : left.unit.isEmpty = false := by
    rw [Units.isEmpty, (Prod.mk.inj hleft_unit).1]
    rfl
  have hd_unit : d.unit.products = unit.products := by
    rw [products_combine hsum, hempty]
    exact hleft.isReduced.normalize.products_eq hunit fun a =>
      (Units.exponent_normalize _ a).trans (hexponent a)
  exact ⟨d, hd, hd_unit, hd.isReduced⟩

end Dimension

end LessCss
