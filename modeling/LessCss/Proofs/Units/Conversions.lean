import LessCss.Proofs.Units.Reduced

/-!
# Units after a conversion

A conversion goes through the families one after the other, and through both lists of a unit in each
round.  But no atomic unit belongs to two families, and a target is used only if it belongs to the
family it is for.  So the rounds do not touch each other's units, and all of them together put one
atomic unit in the place of each (`Conversion.replace`, `Units.convert_fst`).

What is struck out afterwards changes no exponent.  Hence every count that can be taken of exponents
after a conversion is one that can be taken of exponents before it
(`Dimension.exponentWhere_convert`): that of a family is kept, its target gets all of it, and units
without a target keep their own.

For the conversion into canonical units this says which units become the same: those with the same
exponents of all families and of all atomic units outside of them
(`Dimension.products_unify_eq_iff`).
-/

namespace LessCss

namespace Family

/-- No atomic unit belongs to two families. -/
theorem of?_eq_some_iff {f : Family} {a : String} : of? a = some f ↔ (f.factor? a).isSome := by
  constructor
  · exact fun h => List.find?_some (p := fun f => (factor? f a).isSome) h
  · intro h
    unfold factor? at h
    split at h
    all_goals first
      | rfl
      | cases h

theorem of?_canonical (f : Family) : of? f.canonical = some f := by
  cases f <;> rfl

end Family

/-! ## Exponents taken together -/

namespace Units

/-- How often atomic units with a property stand above, less how often they stand below. -/
def exponentWhere (u : Units) (p : String → Bool) : Int :=
  u.numerator.countP p - u.denominator.countP p

/-- How often atomic units of a family stand above, less how often they stand below. -/
def familyExponent (u : Units) (f : Family) : Int := u.exponentWhere fun a => Family.of? a == some f

/-- Puts other atomic units in the place of all, wherever they stand. -/
def mapAtoms (u : Units) (g : String → String) : Units :=
  { u with numerator := u.numerator.map g, denominator := u.denominator.map g }

variable {u v : Units}

theorem exponent_eq (a : String) : u.exponent a = u.exponentWhere (· == a) := rfl

/-- Two units have the same exponents if what is above in one and below in the other is the same
either way. -/
theorem cross_perm (h : ∀ a, u.exponent a = v.exponent a) :
    (u.numerator ++ v.denominator).Perm (v.numerator ++ u.denominator) :=
  List.perm_iff_count.mpr fun a => by
    have ha := h a
    rw [exponent, exponent] at ha
    rw [List.count_append, List.count_append]
    omega

/-- Equal exponents of all atomic units give equal exponents of atomic units with a property. -/
theorem exponentWhere_congr (h : ∀ a, u.exponent a = v.exponent a) (p : String → Bool) :
    u.exponentWhere p = v.exponentWhere p := by
  have hcount := (cross_perm h).countP_eq p
  rw [List.countP_append, List.countP_append] at hcount
  rw [exponentWhere, exponentWhere]
  omega

/-- Cancelling leaves exponents as they are. -/
@[simp] theorem exponentWhere_cancel (p : String → Bool) :
    u.cancel.exponentWhere p = u.exponentWhere p :=
  exponentWhere_congr u.exponent_cancel p

@[simp] theorem exponentWhere_normalize (p : String → Bool) :
    u.normalize.exponentWhere p = u.exponentWhere p :=
  exponentWhere_congr u.exponent_normalize p

/-- Putting other atomic units in the place of all counts them for what they become. -/
theorem exponentWhere_mapAtoms (g : String → String) (p : String → Bool) :
    (u.mapAtoms g).exponentWhere p = u.exponentWhere (p ∘ g) := by
  simp only [exponentWhere, mapAtoms, List.countP_map]

theorem exponent_of_products_eq (h : u.products = v.products) (a : String) :
    u.exponent a = v.exponent a := by
  obtain ⟨hnumerator, hdenominator⟩ := Prod.mk.inj h
  rw [exponent, exponent, hnumerator, hdenominator]

/-- What is not among the atomic units has no exponent. -/
theorem exponent_eq_zero_of_notMem {a : String} (h : a ∉ u.atoms) : u.exponent a = 0 := by
  obtain ⟨habove, hbelow⟩ := not_or.mp (u.mem_atoms.not.mp h)
  rw [exponent, List.count_eq_zero_of_not_mem habove, List.count_eq_zero_of_not_mem hbelow]
  rfl

theorem mem_atoms_of_exponent_ne_zero {a : String} (h : u.exponent a ≠ 0) : a ∈ u.atoms :=
  of_not_not fun ha => h (exponent_eq_zero_of_notMem ha)

/-- The atomic units of a reduced unit are those that have an exponent. -/
theorem IsReduced.mem_atoms_iff (h : u.IsReduced) {a : String} :
    a ∈ u.atoms ↔ u.exponent a ≠ 0 := by
  rw [mem_atoms, ← List.count_pos_iff, ← List.count_pos_iff, h.count_numerator, h.count_denominator]
  omega

end Units

/-! ## What is put in the place of an atomic unit -/

namespace Conversion

variable (c : Conversion) {f : Family} {a t : String}

/-- The target of a family, if it is a unit of the family. -/
def target? (f : Family) : Option String := (c f).filter fun t => Family.of? t == some f

/-- The atomic unit that a conversion puts in the place of another. -/
def replace (a : String) : String := ((Family.of? a).bind c.target?).getD a

variable {c}

/-- The target of a family is what the conversion says, if it is a unit of the family. -/
theorem target?_eq_some_iff : c.target? f = some t ↔ c f = some t ∧ Family.of? t = some f := by
  rw [target?, Option.filter_eq_some_iff, beq_iff_eq]

/-- A unit of a family with a target becomes the target. -/
theorem replace_of_target (ha : Family.of? a = some f) (ht : c.target? f = some t) :
    c.replace a = t := by
  simp [replace, ha, ht]

/-- A unit of a family without target stays. -/
theorem replace_of_no_target (h : ∀ f, Family.of? a = some f → c.target? f = none) :
    c.replace a = a := by
  rw [replace]
  cases ha : Family.of? a with
  | none => rfl
  | some f => rw [Option.bind_some, h f ha, Option.getD_none]

/-- An atomic unit stays in its family. -/
@[simp] theorem of?_replace (a : String) : Family.of? (c.replace a) = Family.of? a := by
  rw [replace]
  cases ha : Family.of? a with
  | none => simp [ha]
  | some f =>
    cases ht : c.target? f with
    | none => simp [ht, ha]
    | some t => simpa [ht] using (target?_eq_some_iff.mp ht).2

/-- Just the units of the family become its target. -/
theorem replace_eq_iff_of_target (ht : c.target? f = some t) :
    c.replace a = t ↔ Family.of? a = some f := by
  refine ⟨fun h => ?_, fun ha => replace_of_target ha ht⟩
  rw [← of?_replace (c := c), h, (target?_eq_some_iff.mp ht).2]

theorem replace_eq_iff_of_no_target (h : ∀ f, Family.of? a = some f → c.target? f = none)
    {b : String} :
    c.replace b = a ↔ b = a := by
  constructor
  · rintro rfl
    exact (replace_of_no_target (by simpa using h)).symm
  · rintro rfl
    exact replace_of_no_target h

/-- What the round of one family puts in the place of an atomic unit. -/
def replaceIn (c : Conversion) (f : Family) (a : String) : String :=
  if Family.of? a = some f then c.replace a else a

/-- The rounds of all families together put in the place of a unit what the conversion puts
there. -/
theorem replaceIn_rounds (a : String) :
    c.replaceIn .angle (c.replaceIn .duration (c.replaceIn .length a)) = c.replace a := by
  cases ha : Family.of? a with
  | none =>
    have hreplace : c.replace a = a := replace_of_no_target (by simp [ha])
    simp [replaceIn, ha, hreplace]
  | some f => cases f <;> simp [replaceIn, ha]

end Conversion

namespace Units

section Rounds

variable {α : Type} {factor : Family → String → Option α}
  (hfactor : ∀ f a, (factor f a).isSome = (f.factor? a).isSome) (c : Conversion) (u : Units)

include hfactor

theorem convertFamily_fst (f : Family) :
    (convertFamily factor c u f).1 = u.mapAtoms (c.replaceIn f) := by
  have hkept (h : c.target? f = .none) : u = u.mapAtoms (c.replaceIn f) := by
    have hself : c.replaceIn f = id := by
      funext a
      rw [Conversion.replaceIn]
      split
      · rename_i ha
        exact Conversion.replace_of_no_target fun g hg => by
          rw [← Option.some.inj (ha.symm.trans hg), h]
      · rfl
    simp [mapAtoms, hself]
  cases hc : c f with
  | none => simpa [convertFamily, hc] using hkept (by simp [Conversion.target?, hc])
  | some t =>
    cases ht : factor f t with
    | none =>
      have houtside : Family.of? t ≠ some f := by simp [Family.of?_eq_some_iff, ← hfactor, ht]
      simpa [convertFamily, hc, ht] using hkept (by simp [Conversion.target?, hc, houtside])
    | some worth =>
      have htarget : c.target? f = some t :=
        Conversion.target?_eq_some_iff.mpr
          ⟨hc, Family.of?_eq_some_iff.mpr (by rw [← hfactor, ht]; rfl)⟩
      have hreplace : (fun a => if (f.factor? a).isSome = true then t else a) = c.replaceIn f := by
        funext a
        rw [Conversion.replaceIn]
        by_cases ha : Family.of? a = some f
        · rw [if_pos ha, if_pos (Family.of?_eq_some_iff.mp ha),
            Conversion.replace_of_target ha htarget]
        · rw [if_neg ha, if_neg fun h => ha (Family.of?_eq_some_iff.mpr h)]
      simp only [convertFamily, hc, ht, retarget, mapAtoms, hreplace]

/-- **What a conversion makes of a unit**: one atomic unit is put in the place of each. -/
theorem convert_fst : (u.convert factor c).1 = u.normalize.mapAtoms c.replace := by
  simp only [convert, Family.all, List.foldl_cons, List.foldl_nil, convertFamily_fst hfactor]
  simp only [mapAtoms, List.map_map]
  congr 2 <;> exact funext Conversion.replaceIn_rounds

end Rounds

end Units

/-! ## Exponents after a conversion -/

namespace Dimension

variable {c : Conversion} {d : Dimension} {f : Family} {a t : String}

/-- The unit of a converted number is that of the number, with other atomic units, and cancelled. -/
theorem unit_convert (c : Conversion) (d : Dimension) :
    (d.convert c).unit = (d.unit.normalize.mapAtoms c.replace).cancel :=
  congrArg Units.cancel (Units.convert_fst (fun _ _ => rfl) c d.unit)

/-- **What is counted after a conversion is counted before it**, by what is put in the place of each
atomic unit. -/
theorem exponentWhere_convert (p : String → Bool) :
    (d.convert c).unit.exponentWhere p = d.unit.exponentWhere (p ∘ c.replace) := by
  rw [unit_convert, Units.exponentWhere_cancel, Units.exponentWhere_mapAtoms,
    Units.exponentWhere_normalize]

/-- **Converting keeps the exponent of every family.** -/
@[simp] theorem familyExponent_convert (f : Family) :
    (d.convert c).unit.familyExponent f = d.unit.familyExponent f := by
  rw [Units.familyExponent, exponentWhere_convert]
  refine congrArg d.unit.exponentWhere (funext fun b => ?_)
  rw [Function.comp_apply, Conversion.of?_replace]

/-- The exponents in families without targets are kept. -/
theorem exponent_convert_of_no_target (h : ∀ f, Family.of? a = some f → c.target? f = none) :
    (d.convert c).unit.exponent a = d.unit.exponent a := by
  rw [Units.exponent_eq, exponentWhere_convert]
  refine congrArg d.unit.exponentWhere (funext fun b => ?_)
  rw [Function.comp_apply, Bool.eq_iff_iff, beq_iff_eq, beq_iff_eq]
  exact Conversion.replace_eq_iff_of_no_target h

/-- The target of a family has the exponent of the whole family. -/
theorem exponent_convert_target (ht : c.target? f = some t) :
    (d.convert c).unit.exponent t = d.unit.familyExponent f := by
  rw [Units.exponent_eq, exponentWhere_convert]
  refine congrArg d.unit.exponentWhere (funext fun b => ?_)
  rw [Function.comp_apply, Bool.eq_iff_iff, beq_iff_eq, beq_iff_eq]
  exact Conversion.replace_eq_iff_of_target ht

/-- The other units of the family are gone. -/
theorem exponent_convert_of_ne (ha : Family.of? a = some f) (ht : c.target? f = some t)
    (hne : a ≠ t) :
    (d.convert c).unit.exponent a = 0 := by
  have hnever : ((· == a) ∘ c.replace) = fun _ => false := by
    funext b
    rw [Function.comp_apply, beq_eq_false_iff_ne]
    intro hb
    have hfamily : Family.of? b = some f := by rw [← Conversion.of?_replace (c := c), hb, ha]
    exact hne (by rw [← hb, Conversion.replace_of_target hfamily ht])
  rw [Units.exponent_eq, exponentWhere_convert, hnever]
  simp [Units.exponentWhere]

/-- Of a family that is converted, only the target is left. -/
theorem eq_of_mem_convert (ht : c.target? f = some t) (ha : a ∈ (d.convert c).unit.atoms)
    (hfamily : Family.of? a = some f) : a = t := by
  by_contra hne
  exact (convert_isReduced c d).mem_atoms_iff.mp ha (exponent_convert_of_ne hfamily ht hne)

end Dimension

/-! ## Units that agree -/

namespace Units

/-- Two units are homogeneous if they have the same exponent of each family and of each atomic unit
outside of the families. -/
structure Homogeneous (u v : Units) : Prop where
  family : ∀ f, u.familyExponent f = v.familyExponent f
  other : ∀ a, Family.of? a = .none → u.exponent a = v.exponent a

theorem homogeneous_refl (u : Units) : u.Homogeneous u := ⟨fun _ => rfl, fun _ _ => rfl⟩

/-- Nothing is left to compare if all atomic units belong to families. -/
theorem homogeneous_of_families {u v : Units} (hu : ∀ a ∈ u.atoms, (Family.of? a).isSome)
    (hv : ∀ a ∈ v.atoms, (Family.of? a).isSome) (h : ∀ f, u.familyExponent f = v.familyExponent f) :
    u.Homogeneous v := by
  have hother {w : Units} (hw : ∀ a ∈ w.atoms, (Family.of? a).isSome) {a : String}
      (ha : Family.of? a = .none) :
      w.exponent a = 0 :=
    exponent_eq_zero_of_notMem fun hmem => by
      have hsome := hw a hmem
      rw [ha] at hsome
      cases hsome
  exact ⟨h, fun a ha => (hother hu ha).trans (hother hv ha).symm⟩

namespace Homogeneous

variable {u v w : Units}

theorem symm (h : u.Homogeneous v) : v.Homogeneous u :=
  ⟨fun f => (h.family f).symm, fun a ha => (h.other a ha).symm⟩

theorem trans (huv : u.Homogeneous v) (hvw : v.Homogeneous w) : u.Homogeneous w :=
  ⟨fun f => (huv.family f).trans (hvw.family f), fun a ha =>
    (huv.other a ha).trans (hvw.other a ha)⟩

end Homogeneous

end Units

namespace Dimension

variable {a b d : Dimension} {f : Family} {x : String}

theorem target?_canonical (f : Family) :
    Conversion.target? (fun f => some f.canonical) f = some f.canonical :=
  Conversion.target?_eq_some_iff.mpr ⟨rfl, f.of?_canonical⟩

/-- In canonical units, the canonical unit of a family has the exponent of the whole family. -/
theorem exponent_unify_canonical (f : Family) :
    d.unify.unit.exponent f.canonical = d.unit.familyExponent f :=
  exponent_convert_target (target?_canonical f)

/-- Other units of the family are not left. -/
theorem exponent_unify_of_ne (hx : Family.of? x = some f) (hne : x ≠ f.canonical) :
    d.unify.unit.exponent x = 0 :=
  exponent_convert_of_ne hx (target?_canonical f) hne

/-- Units outside of the families keep their exponents. -/
theorem exponent_unify_of_other (hx : Family.of? x = none) :
    d.unify.unit.exponent x = d.unit.exponent x :=
  exponent_convert_of_no_target (by simp [hx])

/-- **Two numbers have the same unit in canonical units just if their units are homogeneous.** -/
theorem products_unify_eq_iff : a.unify.unit.products = b.unify.unit.products ↔
    a.unit.Homogeneous b.unit := by
  constructor
  · intro h
    have hexponent := Units.exponent_of_products_eq h
    constructor
    · intro f
      exact (exponent_unify_canonical f).symm.trans
        ((hexponent _).trans (exponent_unify_canonical f))
    · intro x hx
      exact (exponent_unify_of_other hx).symm.trans
        ((hexponent x).trans (exponent_unify_of_other hx))
  · intro h
    refine (convert_isReduced _ a).products_eq (convert_isReduced _ b) fun x => ?_
    change a.unify.unit.exponent x = b.unify.unit.exponent x
    cases hx : Family.of? x with
    | none => rw [exponent_unify_of_other hx, exponent_unify_of_other hx, h.other x hx]
    | some f =>
      by_cases hcanonical : x = f.canonical
      · rw [hcanonical, exponent_unify_canonical, exponent_unify_canonical, h.family f]
      · rw [exponent_unify_of_ne hx hcanonical, exponent_unify_of_ne hx hcanonical]

end Dimension

end LessCss
