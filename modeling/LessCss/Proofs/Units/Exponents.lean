import Mathlib.Data.List.Sort
import LessCss.Dimension

/-!
# Units as exponents

A unit is given by how often each atomic unit stands above, less how often it stands below: by its
*exponents*. Products add exponents and quotients subtract them, whatever the two units look like
(`Units.exponent_mul`, `Units.exponent_div`).

What is struck out leaves a *reduced* unit: both lists are in order, and none has an atomic unit of
the other. A reduced unit can be read back from its exponents, since each atomic unit stands on one
side only (`Units.IsReduced.products_eq`).  So the laws of multiplication hold of the lists because
they hold of integers; no law has to be traced through the lists themselves
(`Dimension.operate_exponents`).
-/

namespace LessCss

namespace Units

/-! ## Atomic units in order -/

theorem sorted_perm (atoms : List String) : (sorted atoms).Perm atoms := List.mergeSort_perm atoms _

theorem pairwise_sorted (atoms : List String) : (sorted atoms).Pairwise (· ≤ ·) :=
  List.pairwise_mergeSort' (· ≤ ·) atoms

theorem nodup_eraseDups (atoms : List String) : atoms.eraseDups.Nodup := by
  match atoms with
  | [] => exact List.nodup_nil
  | a :: atoms =>
    have ha : a ∉ (atoms.filter fun b => !b == a).eraseDups := by simp [List.mem_eraseDups]
    rw [List.eraseDups_cons]
    exact List.nodup_cons.mpr ⟨ha, nodup_eraseDups _⟩
termination_by atoms.length
decreasing_by exact Nat.lt_succ_of_le (List.length_filter_le _ _)

variable (u v : Units)

theorem nodup_atoms : u.atoms.Nodup := (sorted_perm _).nodup_iff.mpr (nodup_eraseDups _)

theorem mem_atoms {a : String} : a ∈ u.atoms ↔ a ∈ u.numerator ∨ a ∈ u.denominator := by
  rw [atoms, (sorted_perm _).mem_iff, List.mem_eraseDups, List.mem_append]

/-! ### Lists that repeat each atomic unit a number of times -/

section Repeated

variable {atoms : List String} (times : String → Nat)

/-- A row with each atomic unit repeated some times is in order if the row is. -/
theorem pairwise_repeated (h : atoms.Pairwise (· ≤ ·)) :
    (atoms.flatMap fun a => List.replicate (times a) a).Pairwise (· ≤ ·) := by
  refine List.pairwise_flatMap.mpr
    ⟨fun a _ => List.pairwise_replicate.mpr (.inr (String.le_refl a)), ?_⟩
  refine h.imp fun hab x hx y hy => ?_
  rw [List.eq_of_mem_replicate hx, List.eq_of_mem_replicate hy]
  exact hab

/-- In such a row an atomic unit stands as often as it is repeated. -/
theorem count_repeated (h : atoms.Nodup) (x : String) :
    (atoms.flatMap fun a => List.replicate (times a) a).count x =
      if x ∈ atoms then times x else 0 := by
  induction atoms with
  | nil => rfl
  | cons a atoms ih =>
    obtain ⟨ha, hatoms⟩ := List.nodup_cons.mp h
    rw [List.flatMap_cons, List.count_append, ih hatoms, List.count_replicate]
    by_cases hx : a = x
    · subst hx
      simp [ha]
    · simp [hx, Ne.symm hx]

end Repeated

/-! ## Exponents -/

/-- How often an atomic unit stands above, less how often it stands below. -/
def exponent (a : String) : Int := u.numerator.count a - u.denominator.count a

/-- What stands above and below, without the fallback. -/
def products : List String × List String := (u.numerator, u.denominator)

/-- Both lists are in order, and nothing stands both above and below. -/
structure IsReduced (u : Units) : Prop where
  numerator_sorted : u.numerator.Pairwise (· ≤ ·)
  denominator_sorted : u.denominator.Pairwise (· ≤ ·)
  apart : u.numerator.Disjoint u.denominator

/-- Cancelling takes from what stands above what stands below. -/
theorem count_numerator_cancel (a : String) :
    u.cancel.numerator.count a = u.numerator.count a - u.denominator.count a := by
  have hcount :=
    count_repeated (fun a => u.numerator.count a - u.denominator.count a) u.nodup_atoms a
  refine hcount.trans (ite_eq_left_iff.mpr fun ha => ?_)
  rw [List.count_eq_zero_of_not_mem fun h => ha (u.mem_atoms.mpr (.inl h)), Nat.zero_sub]

/-- And the other way round. -/
theorem count_denominator_cancel (a : String) :
    u.cancel.denominator.count a = u.denominator.count a - u.numerator.count a := by
  have hcount :=
    count_repeated (fun a => u.denominator.count a - u.numerator.count a) u.nodup_atoms a
  refine hcount.trans (ite_eq_left_iff.mpr fun ha => ?_)
  rw [List.count_eq_zero_of_not_mem fun h => ha (u.mem_atoms.mpr (.inr h)), Nat.zero_sub]

/-- **Striking out keeps all exponents.** -/
@[simp] theorem exponent_cancel (a : String) : u.cancel.exponent a = u.exponent a := by
  rw [exponent, exponent, count_numerator_cancel, count_denominator_cancel]
  omega

/-- **What is left after striking out is reduced**, whatever the unit was. -/
theorem cancel_isReduced : u.cancel.IsReduced where
  numerator_sorted := pairwise_repeated _ (pairwise_sorted _)
  denominator_sorted := pairwise_repeated _ (pairwise_sorted _)
  apart a habove hbelow := by
    have habove := List.count_pos_iff.mpr habove
    have hbelow := List.count_pos_iff.mpr hbelow
    rw [count_numerator_cancel] at habove
    rw [count_denominator_cancel] at hbelow
    omega

@[simp] theorem exponent_normalize (a : String) : u.normalize.exponent a = u.exponent a := by
  rw [exponent, exponent]
  exact congrArg₂ (fun m n : Nat => (m : Int) - n) ((sorted_perm _).count_eq a)
    ((sorted_perm _).count_eq a)

/-- A single unit has the exponent one, and no other. -/
theorem exponent_ofAtom (atom a : String) :
    (ofAtom atom).exponent a = if atom ≠ "" ∧ atom = a then 1 else 0 := by
  rw [ofAtom]
  split
  · simp_all [none, exponent]
  · refine (exponent_normalize ⟨[atom], [], .none⟩ a).trans ?_
    simp only [exponent, List.count_singleton, beq_iff_eq, List.count_nil]
    split_ifs <;> simp_all

/-- The exponents of a product are the sums of exponents. -/
theorem exponent_mul (a : String) : (u.mul v).exponent a = u.exponent a + v.exponent a := by
  rw [← exponent_normalize u, mul, exponent_cancel]
  simp only [exponent, List.count_append]
  omega

/-- The exponents of a quotient are the differences of exponents. -/
theorem exponent_div (a : String) : (u.div v).exponent a = u.exponent a - v.exponent a := by
  rw [← exponent_normalize u, div, exponent_cancel]
  simp only [exponent, List.count_append]
  omega

/-! ## Reading a reduced unit back from its exponents -/

namespace IsReduced

variable {u v : Units}

/-- Above, a reduced unit has an atomic unit as often as a positive exponent says. -/
theorem count_numerator (h : u.IsReduced) (a : String) :
    u.numerator.count a = (u.exponent a).toNat := by
  rw [exponent]
  by_cases ha : a ∈ u.numerator
  · rw [List.count_eq_zero_of_not_mem (h.apart ha)]
    omega
  · rw [List.count_eq_zero_of_not_mem ha]
    omega

theorem count_denominator (h : u.IsReduced) (a : String) :
    u.denominator.count a = (-u.exponent a).toNat := by
  have hnumerator := h.count_numerator a
  rw [exponent] at hnumerator ⊢
  omega

/-- **Reduced units with the same exponents have the same lists.** -/
theorem products_eq (hu : u.IsReduced) (hv : v.IsReduced) (h : ∀ a, u.exponent a = v.exponent a) :
    u.products = v.products := by
  have habove : u.numerator.Perm v.numerator := List.perm_iff_count.mpr fun a => by
    rw [hu.count_numerator, hv.count_numerator, h]
  have hbelow : u.denominator.Perm v.denominator := List.perm_iff_count.mpr fun a => by
    rw [hu.count_denominator, hv.count_denominator, h]
  exact Prod.ext (habove.eq_of_pairwise' hu.numerator_sorted hv.numerator_sorted)
    (hbelow.eq_of_pairwise' hu.denominator_sorted hv.denominator_sorted)

end IsReduced

theorem mul_isReduced : (u.mul v).IsReduced := cancel_isReduced _

theorem div_isReduced : (u.div v).IsReduced := cancel_isReduced _

/-- The order of factors does not matter. -/
theorem products_mul_comm : (u.mul v).products = (v.mul u).products :=
  (mul_isReduced u v).products_eq (mul_isReduced v u) fun a => by
    rw [exponent_mul, exponent_mul, Int.add_comm]

/-- Nor does their grouping. -/
theorem products_mul_assoc (w : Units) : ((u.mul v).mul w).products = (u.mul (v.mul w)).products :=
  (mul_isReduced _ _).products_eq (mul_isReduced _ _) fun a => by
    simp only [exponent_mul, Int.add_assoc]

/-- Multiplying and dividing by the same unit leaves the reduced unit. -/
theorem products_mul_div_cancel : ((u.mul v).div v).products = u.cancel.products :=
  (div_isReduced _ _).products_eq u.cancel_isReduced fun a => by
    rw [exponent_div, exponent_mul, exponent_cancel, Int.add_sub_cancel]

end Units

namespace Dimension

/-- **Units of products and quotients are exponents added and subtracted.**  Any two numbers can be
multiplied and divided, with strict units or without.  The unit of the result is reduced, and the
exponent of each atomic unit in it is the sum or the difference of the exponents in the two units.
Hence a product has the same lists in either order and with either grouping, and dividing by one of
the factors gives the lists of the other one with all struck out that stands both above and
below. -/
theorem operate_exponents (strict : Bool) (a b c : Dimension) :
    ∃ ab ba bc abc abc' quotient back : Dimension,
      operate .mul strict a b = .ok ab ∧ ab.unit.IsReduced ∧
        (∀ atom, ab.unit.exponent atom = a.unit.exponent atom + b.unit.exponent atom) ∧
      operate .div strict a b = .ok quotient ∧ quotient.unit.IsReduced ∧
        (∀ atom, quotient.unit.exponent atom = a.unit.exponent atom - b.unit.exponent atom) ∧
      operate .mul strict b a = .ok ba ∧ ab.unit.products = ba.unit.products ∧
      operate .mul strict b c = .ok bc ∧ operate .mul strict ab c = .ok abc ∧
      operate .mul strict a bc = .ok abc' ∧
        abc.unit.products = abc'.unit.products ∧
      operate .div strict ab b = .ok back ∧ back.unit.products = a.unit.cancel.products :=
  ⟨_, _, _, _, _, _, _, rfl, Units.mul_isReduced _ _, Units.exponent_mul _ _, rfl,
    Units.div_isReduced _ _,
    Units.exponent_div _ _, rfl, Units.products_mul_comm _ _, rfl, rfl, rfl,
      Units.products_mul_assoc _ _ _, rfl,
    Units.products_mul_div_cancel _ _⟩

end Dimension

end LessCss
