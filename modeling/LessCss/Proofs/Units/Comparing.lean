import LessCss.Proofs.Units.Conversions

/-!
# Which numbers compare

Numbers with units compare if their units, converted into canonical ones, are written alike.  Three
things make this a statement about the quantities themselves.  The text of a unit can be read back
if its atomic units are legible, so that units which are written alike are alike
(`Units.products_eq_of_text_eq`).  Converted units are alike just if the units are homogeneous
(`Dimension.products_unify_eq_iff`).  And two plain numbers are in some order unless one of them is
undefined (`Dimension.isSome_compareFloat_iff`).

Hence numbers compare just if their units are homogeneous, and to compare is an equivalence
(`Dimension.comparable_iff_homogeneous`).
-/

namespace LessCss

/-! ## Reading a unit back from its text -/

namespace Units

/-- An atomic unit that can be told from what stands around it: it is not empty, and has no star or
slash in it. -/
structure LegibleAtom (a : String) : Prop where
  ne_empty : a ≠ ""
  no_star : '*' ∉ a.toList
  no_slash : '/' ∉ a.toList

/-- All atomic units can be told apart in the text of the unit. -/
def Legible (u : Units) : Prop := ∀ a ∈ u.atoms, LegibleAtom a

variable {u v : Units}

theorem Legible.numerator (h : u.Legible) : ∀ a ∈ u.numerator, LegibleAtom a := fun a ha =>
  h a (u.mem_atoms.mpr (.inl ha))

theorem Legible.denominator (h : u.Legible) : ∀ a ∈ u.denominator, LegibleAtom a := fun a ha =>
  h a (u.mem_atoms.mpr (.inr ha))

/-- A row of legible atomic units is told from its text. -/
theorem splitOn_stars {atoms : List String} (h : ∀ a ∈ atoms, LegibleAtom a) (hne : atoms ≠ []) :
    ("*".intercalate atoms).toList.splitOn '*' = atoms.map String.toList := by
  rw [String.toList_intercalate]
  refine List.splitOn_intercalate '*' (fun l hl => ?_) (by simpa using hne)
  obtain ⟨a, ha, rfl⟩ := List.mem_map.mp hl
  exact (h a ha).no_star

theorem ne_empty_of_stars {atoms : List String} (h : ∀ a ∈ atoms, LegibleAtom a)
    (hne : atoms ≠ []) :
    "*".intercalate atoms ≠ "" := by
  intro hempty
  have hsplit := splitOn_stars h hne
  rw [hempty] at hsplit
  obtain ⟨a, rest, rfl⟩ := List.exists_cons_of_ne_nil hne
  have ha : a.toList = [] := (List.cons.inj hsplit).1.symm
  exact (h a List.mem_cons_self).ne_empty (String.toList_inj.mp ha)

/-- So two rows with the same text are the same. -/
theorem eq_of_stars_eq {atoms others : List String} (hatoms : ∀ a ∈ atoms, LegibleAtom a)
    (hothers : ∀ a ∈ others, LegibleAtom a) (h : "*".intercalate atoms = "*".intercalate others) :
    atoms = others := by
  by_cases hnone : atoms = []
  · subst hnone
    by_contra hne
    exact ne_empty_of_stars hothers (Ne.symm hne) h.symm
  · by_cases hnoOthers : others = []
    · subst hnoOthers
      exact absurd h (ne_empty_of_stars hatoms hnone)
    · have hsplit := splitOn_stars hatoms hnone
      rw [h, splitOn_stars hothers hnoOthers] at hsplit
      exact (List.map_inj_right fun _ _ => String.toList_inj.mp).mp hsplit.symm

theorem slash_notMem_stars {atoms : List String} (h : ∀ a ∈ atoms, LegibleAtom a) :
    '/' ∉ ("*".intercalate atoms).toList := by
  induction atoms with
  | nil => simp
  | cons a atoms ih =>
    obtain ⟨ha, hatoms⟩ := List.forall_mem_cons.mp h
    by_cases hlast : atoms = []
    · simpa [hlast] using ha.no_slash
    · rw [String.intercalate_cons_of_ne_nil hlast, String.toList_append, String.toList_append]
      simp only [List.mem_append, not_or]
      exact ⟨⟨ha.no_slash, by decide⟩, ih hatoms⟩

/-- The text of a unit has slashes before what stands below. -/
theorem toList_text (u : Units) :
    u.text.toList =
      ['/'].intercalate
        (("*".intercalate u.numerator).toList :: u.denominator.map String.toList) := by
  have hbehind (above : List Char) (atoms : List String) :
      above ++ (atoms.map fun a => '/' :: a.toList).flatten
        = ['/'].intercalate (above :: atoms.map String.toList) := by
    induction atoms generalizing above with
    | nil => simp
    | cons a atoms ih => simp [← ih]
  rw [← hbehind, text, String.toList_append, String.toList_join]
  simp [List.flatMap, Function.comp_def]

/-- The slashes in the text of a legible unit separate what stands above and below. -/
theorem splitOn_slashes (h : u.Legible) :
    u.text.toList.splitOn '/' = ("*".intercalate u.numerator).toList ::
    u.denominator.map String.toList := by
  rw [toList_text]
  refine List.splitOn_intercalate '/' (fun l hl => ?_) (List.cons_ne_nil _ _)
  rcases List.mem_cons.mp hl with rfl | hl
  · exact slash_notMem_stars h.numerator
  · obtain ⟨a, ha, rfl⟩ := List.mem_map.mp hl
    exact (h.denominator a ha).no_slash

/-- **The text of a unit can be read back.** -/
theorem products_eq_of_text_eq (hu : u.Legible) (hv : v.Legible) (h : u.text = v.text) :
    u.products = v.products := by
  have hsplit := splitOn_slashes hu
  rw [h, splitOn_slashes hv] at hsplit
  obtain ⟨habove, hbelow⟩ := List.cons.inj hsplit
  exact Prod.ext (eq_of_stars_eq hu.numerator hv.numerator (String.toList_inj.mp habove.symm))
    ((List.map_inj_right fun _ _ => String.toList_inj.mp).mp hbelow.symm)

/-- Units of the same atomic units above and below have the same text. -/
theorem text_eq_of_products_eq (h : u.products = v.products) : u.text = v.text := by
  obtain ⟨hnumerator, hdenominator⟩ := Prod.mk.inj h
  rw [text, text, hnumerator, hdenominator]

end Units

/-! ## Numbers in order -/

namespace Dimension

section Plain

open Float.Model

/-- Comparing two floating-point numbers the other way round gives the opposite order. -/
theorem unpacked_compare_swap (x y : UnpackedFloat) :
    y.compare x = (x.compare y).map Ordering.swap := by
  have hfinite (e k : Int) (m n : Nat) :
      (compare k e).then (compare n m) = ((compare e k).then (compare m n)).swap := by
    rw [Ordering.swap_then, ← Std.OrientedCmp.eq_swap, ← Std.OrientedCmp.eq_swap]
  rcases x with ⟨⟨⟩⟩ | _ | ⟨⟨⟩⟩ | ⟨⟨⟩, m, e, hm⟩ <;>
    rcases y with ⟨⟨⟩⟩ | _ | ⟨⟨⟩⟩ | ⟨⟨⟩, n, k, hn⟩ <;> try rfl
  -- two finite numbers of the same sign compare by their exponents, and then by their digits
  · exact congrArg (fun order => some order.swap) (hfinite e k m n)
  · exact congrArg some (hfinite e k m n)

/-- Two floating-point numbers are in some order unless one of them is not a number. -/
theorem isSome_unpacked_compare (x y : UnpackedFloat) :
    (x.compare y).isSome = (!x.isNaN && !y.isNaN) := by
  rcases x with ⟨⟨⟩⟩ | _ | ⟨⟨⟩⟩ | ⟨⟨⟩, m, e, hm⟩ <;>
    rcases y with ⟨⟨⟩⟩ | _ | ⟨⟨⟩⟩ | ⟨⟨⟩, n, k, hn⟩ <;> rfl

variable {x y : Float}

theorem lt_iff : x < y ↔ x.toModel.unpack.compare y.toModel.unpack = some .lt := by
  change decide ((x.toModel.unpack.compare y.toModel.unpack == some .lt) = true) = true ↔ _
  rw [decide_eq_true_iff, beq_iff_eq]

theorem beq_iff : (x == y) = true ↔ x.toModel.unpack.compare y.toModel.unpack = some .eq := by
  change (x.toModel.unpack.compare y.toModel.unpack == some .eq) = true ↔ _
  rw [beq_iff_eq]

/-- Comparing two floating-point numbers compares what they stand for. -/
theorem compareFloat_eq (x y : Float) :
    compareFloat x y = x.toModel.unpack.compare y.toModel.unpack := by
  have hswap := unpacked_compare_swap x.toModel.unpack y.toModel.unpack
  simp only [compareFloat, lt_iff, beq_iff, hswap]
  cases x.toModel.unpack.compare y.toModel.unpack with
  | none => rfl
  | some order => cases order <;> rfl

/-- Two plain numbers are in some order unless one of them is undefined. -/
theorem isSome_compareFloat_iff : (compareFloat x y).isSome ↔
    x.isNaN = false ∧ y.isNaN = false := by
  rw [compareFloat_eq, isSome_unpacked_compare, Bool.and_eq_true, Bool.not_eq_true',
    Bool.not_eq_true']
  rfl

end Plain

/-! ## Comparable numbers -/

/-- A number whose unit is one, and legible, and which is defined in canonical units. -/
structure Measured (d : Dimension) : Prop where
  unit_ne_empty : d.unit.isEmpty = false
  legible : d.unit.Legible
  defined : d.unify.value.isNaN = false

variable {a b : Dimension}

theorem legibleAtom_canonical (f : Family) : Units.LegibleAtom f.canonical := by
  cases f <;> exact ⟨by decide, by decide, by decide⟩

/-- A legible unit stays legible when it is put in canonical units. -/
theorem legible_unify (h : a.unit.Legible) : a.unify.unit.Legible := by
  intro x hx
  cases hfamily : Family.of? x with
  | none =>
    have hexponent := (convert_isReduced _ a).mem_atoms_iff.mp hx
    exact h x (Units.mem_atoms_of_exponent_ne_zero (exponent_unify_of_other hfamily ▸ hexponent))
  | some f =>
    rw [eq_of_mem_convert (target?_canonical f) hx hfamily]
    exact legibleAtom_canonical f

/-- Two measured numbers compare just if their units are homogeneous. -/
theorem isSome_compare?_iff (ha : a.Measured) (hb : b.Measured) :
    (compare? a b).isSome ↔ a.unit.Homogeneous b.unit := by
  have htexts : a.unify.unit.text = b.unify.unit.text ↔ a.unit.Homogeneous b.unit := by
    rw [← products_unify_eq_iff]
    exact ⟨Units.products_eq_of_text_eq (legible_unify ha.legible) (legible_unify hb.legible),
      Units.text_eq_of_products_eq⟩
  have hvalues := isSome_compareFloat_iff.mpr ⟨ha.defined, hb.defined⟩
  rw [← htexts, compare?, ha.unit_ne_empty, hb.unit_ne_empty]
  simp only [Bool.or_self, Bool.false_eq_true, if_false, beq_iff_eq]
  split_ifs with h <;> simp [h, hvalues]

/-- **To compare is to be homogeneous.**  Among numbers with units, which are defined in canonical
units, two compare just if their units have the same exponent of each family and of each atomic unit
outside of the families.  This is an equivalence, so that it never matters which of the two is
compared with the other. -/
theorem comparable_iff_homogeneous :
    (∀ a b : { d : Dimension // d.Measured }, (compare? a.1 b.1).isSome ↔
      a.1.unit.Homogeneous b.1.unit) ∧
      Equivalence (fun a b : { d : Dimension // d.Measured } => (compare? a.1 b.1).isSome) ∧
      ∀ a b : { d : Dimension // d.Measured }, compare? a.1 b.1 = none ↔
      compare? b.1 a.1 = none := by
  have hcompare (a b : { d : Dimension // d.Measured }) := isSome_compare?_iff a.2 b.2
  refine ⟨hcompare, ⟨fun a => ?_, fun {a b} h => ?_, fun {a b c} hab hbc => ?_⟩, fun a b => ?_⟩
  · exact (hcompare a a).mpr (Units.homogeneous_refl _)
  · exact (hcompare b a).mpr ((hcompare a b).mp h).symm
  · exact (hcompare a c).mpr (((hcompare a b).mp hab).trans ((hcompare b c).mp hbc))
  · rw [← Option.not_isSome_iff_eq_none, ← Option.not_isSome_iff_eq_none, hcompare a b,
      hcompare b a]
    exact not_congr ⟨Units.Homogeneous.symm, Units.Homogeneous.symm⟩

/-- Centimeters per millisecond compare with pixels per second, and not with pixels. -/
theorem comparable_iff_homogeneous_speeds :
    let fast : Dimension := ⟨2, ⟨["cm"], ["ms"], none⟩⟩
    let slow : Dimension := ⟨3, ⟨["px"], ["s"], none⟩⟩
    let long : Dimension := ⟨3, ⟨["px"], [], none⟩⟩
    fast.Measured ∧ slow.Measured ∧ long.Measured ∧ (compare? fast slow).isSome ∧
      compare? fast long = none := by
  intro fast slow long
  have hsorted (a : String) : Units.sorted [a] = [a] := List.mergeSort_singleton _
  have hnone : Units.sorted [] = [] := List.mergeSort_nil
  have hfast_value : fast.unify.value = 2 * (0.01 / (0.0254 / 96)) / (0.001 / 1) := by
    simp only [unify, convert, Units.convert, Units.normalize, Units.ofProducts, fast, hsorted]
    rfl
  have hslow_value : slow.unify.value = 3 * (0.0254 / 96 / (0.0254 / 96)) / (1 / 1) := by
    simp only [unify, convert, Units.convert, Units.normalize, Units.ofProducts, slow, hsorted]
    rfl
  have hlong_value : long.unify.value = 3 * (0.0254 / 96 / (0.0254 / 96)) := by
    simp only [unify, convert, Units.convert, Units.normalize, Units.ofProducts, long,
      hsorted, hnone]
    rfl
  have hcm : Units.LegibleAtom "cm" := ⟨by decide, by decide, by decide⟩
  have hms : Units.LegibleAtom "ms" := ⟨by decide, by decide, by decide⟩
  have hpx : Units.LegibleAtom "px" := ⟨by decide, by decide, by decide⟩
  have hs : Units.LegibleAtom "s" := ⟨by decide, by decide, by decide⟩
  have hfast : fast.Measured := ⟨rfl, by simp [Units.Legible, Units.mem_atoms, fast, hcm, hms], by
    rw [hfast_value]; decide +kernel⟩
  have hslow : slow.Measured := ⟨rfl, by simp [Units.Legible, Units.mem_atoms, slow, hpx, hs], by
    rw [hslow_value]; decide +kernel⟩
  have hlong : long.Measured := ⟨rfl, by simp [Units.Legible, Units.mem_atoms, long, hpx], by
    rw [hlong_value]; decide +kernel⟩
  obtain ⟨hcomparable, -, -⟩ := comparable_iff_homogeneous
  have hspeeds : fast.unit.Homogeneous slow.unit := by
    refine Units.homogeneous_of_families ?_ ?_ fun f => by cases f <;> rfl
    · simp [Units.mem_atoms, fast, Family.of?, Family.all, Family.factor?]
    · simp [Units.mem_atoms, slow, Family.of?, Family.all, Family.factor?]
  refine ⟨hfast, hslow, hlong, (hcomparable ⟨fast, hfast⟩ ⟨slow, hslow⟩).mpr hspeeds, ?_⟩
  · rw [← Option.not_isSome_iff_eq_none]
    intro h
    have hduration := ((hcomparable ⟨fast, hfast⟩ ⟨long, hlong⟩).mp h).family .duration
    exact absurd hduration (show (-1 : Int) ≠ 0 by decide)

end Dimension

end LessCss
