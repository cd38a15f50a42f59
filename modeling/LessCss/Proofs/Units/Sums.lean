import LessCss.Proofs.Lexing.Spelling
import LessCss.Proofs.Units.Comparing

/-!
# Sums of numbers with units

A sum has the unit of its left side.  For the right side to be expressed in that unit as well, it is
converted into the first atomic unit of each family that the left unit uses.  So it ends up in the
left unit only if that has one atomic unit of each family at most, and each family of the right unit
(`Dimension.sum_in_left_unit_iff`).

With strict units there is nothing to convert: the two units have to be written alike, which for
numbers that are calculated means that they are alike.  But a right unit with nothing above is not
looked at if the left unit has nothing below (`Dimension.strict_sum_iff`).

Both hold of the numbers that are calculated from the number tokens of a stylesheet
(`Dimension.Calculated`).  Their units are reduced, and legible, since a token has no star or slash
in its unit.
-/

namespace LessCss

namespace Lexer

open Pattern

/-- The unit of a number token can be told from what stands around it. -/
theorem legibleAtom_of_accepts {w : List Char} (h : unit.Accepts w) :
    Units.LegibleAtom (String.ofList w) := by
  obtain ⟨p, hp, h⟩ := Accepts.firstOf h
  simp only [List.mem_cons, List.not_mem_nil, or_false] at hp
  rcases hp with rfl | rfl
  · obtain ⟨u, v, hu, hv, rfl⟩ := Accepts.seq h
    obtain ⟨c, rfl, hc⟩ := Accepts.char hu
    have hplain : ∀ x ∈ [c] ++ v, (isLetter x || x.isDigit) = true :=
      List.forall_mem_cons.mpr ⟨by rw [hc, Bool.true_or], Accepts.run hv⟩
    refine ⟨by simp [← String.toList_inj], fun hstar => ?_, fun hslash => ?_⟩
    · exact absurd (hplain '*' (by simpa using hstar)) (by decide)
    · exact absurd (hplain '/' (by simpa using hslash)) (by decide)
  · rw [Accepts.just h]
    exact ⟨by decide, by decide, by decide⟩

end Lexer

namespace Dimension

/-! ## Numbers that are calculated -/

/-- The numbers that come out of number tokens by operators and by minus signs. -/
inductive Calculated : Dimension → Prop
  | literal {t : Token} {d : Dimension} (h : t.Spelled) (hkind : t.kind = .dimension ∨
    t.kind = .number)
      (hread : Dimension.read t.text = .ok d) : Calculated d
  | negative {strict : Bool} {d e : Dimension} (hd : Calculated d)
      (h : Dimension.operate .mul strict (.ofFloat (-1)) d = .ok e) : Calculated e
  | operate {op : Operator} {strict : Bool} {a b d : Dimension} (ha : Calculated a)
    (hb : Calculated b)
      (h : Dimension.operate op strict a b = .ok d) : Calculated d

/-- A calculation brings no atomic unit in. -/
theorem exponent_ne_zero_of_operate {op : Operator} {strict : Bool} {a b d : Dimension} {x : String}
    (h : operate op strict a b = .ok d) (hx : d.unit.exponent x ≠ 0) :
    a.unit.exponent x ≠ 0 ∨ b.unit.exponent x ≠ 0 := by
  cases op with
  | add | sub =>
    rw [Units.exponent_of_products_eq (products_combine h), Units.exponent_normalize] at hx
    split at hx
    · exact .inr hx
    · exact .inl hx
  | mul =>
    cases h
    rw [Units.exponent_mul] at hx
    omega
  | div =>
    cases h
    rw [Units.exponent_div] at hx
    omega

namespace Calculated

variable {d : Dimension}

/-- A calculated number has a reduced unit. -/
theorem reduced (h : Calculated d) : d.unit.IsReduced := by
  induction h with
  | literal _ _ hread => exact read_isReduced hread
  | negative _ h ih => exact operate_isReduced Units.none_isReduced ih h
  | operate _ _ h iha ihb => exact operate_isReduced iha ihb h

/-- The atomic units of a calculated number can be told apart. -/
theorem legibleAtom {x : String} (h : Calculated d) (hx : d.unit.exponent x ≠ 0) :
    Units.LegibleAtom x := by
  induction h with
  | literal h hkind hread =>
    obtain ⟨value, u, hu, haccepts⟩ := h.read_eq hkind
    obtain rfl := Except.ok.inj (hread.symm.trans hu)
    rw [ofAtom, Units.exponent_ofAtom] at hx
    obtain ⟨hne, rfl⟩ := of_not_not fun hno => hx (if_neg hno)
    rcases haccepts with rfl | haccepts
    · exact absurd rfl hne
    · exact Lexer.legibleAtom_of_accepts haccepts
  | negative _ h ih =>
    rcases exponent_ne_zero_of_operate h hx with hone | hx
    · exact absurd rfl hone
    · exact ih hx
  | operate _ _ h iha ihb => exact (exponent_ne_zero_of_operate h hx).elim iha ihb

theorem legible (h : Calculated d) : d.unit.Legible :=
  fun _ hx => h.legibleAtom (h.reduced.mem_atoms_iff.mp hx)

/-- One of a unit is calculated, being read from a token. -/
theorem one (atom : String)
    (hspelled : Lexer.patternOf .dimension ("1" ++ atom).toList = some ("1" ++ atom).toList.length)
    (hread : Dimension.read ("1" ++ atom) = .ok (.ofAtom 1 atom)) : Calculated (.ofAtom 1 atom) :=
  .literal (t := ⟨.dimension, 0, atom.length + 1, "1" ++ atom⟩)
    ⟨_, _, hspelled, List.take_length.symm⟩ (.inl rfl) hread

end Calculated

end Dimension

namespace Units

variable {u v : Units} {f : Family} {a t : String}

theorem sorted_eq_nil_iff {atoms : List String} : sorted atoms = [] ↔ atoms = [] :=
  ⟨fun h => List.nil_perm.mp (h ▸ sorted_perm atoms), fun h => by rw [h]; exact List.mergeSort_nil⟩

theorem isEmpty_of_mem_atoms (h : a ∈ u.atoms) : u.isEmpty = false := by
  rcases u.mem_atoms.mp h with h | h
  · simp [isEmpty, List.ne_nil_of_mem h]
  · simp [isEmpty, List.ne_nil_of_mem h]

theorem products_ofAtom (ha : a ≠ "") : (ofAtom a).products = ([a], []) := by
  simp [ofAtom, ha, ofProducts, products, sorted]

/-- The quotient of two different atomic units has the first above and the second below. -/
theorem products_div_ofAtom (ha : a ≠ "") (ht : t ≠ "") (hne : a ≠ t) :
    ((ofAtom a).div (ofAtom t)).products = ([a], [t]) := by
  let quotient : Units := ⟨[a], [t], .none⟩
  have hquotient : quotient.IsReduced :=
    ⟨List.pairwise_singleton _ _, List.pairwise_singleton _ _, by simpa [quotient] using hne.symm⟩
  refine (div_isReduced _ _).products_eq hquotient fun x => ?_
  rw [exponent_div, exponent_ofAtom, exponent_ofAtom]
  simp only [quotient, exponent, List.count_singleton, beq_iff_eq, ne_eq, ha, ht,
    not_false_eq_true, true_and]
  split_ifs <;> rfl

theorem IsReduced.products_normalize (h : u.IsReduced) : u.normalize.products = u.products :=
  h.normalize.products_eq h u.exponent_normalize

/-! ## The first unit of each family -/

/-- There are no two atomic units of one family. -/
def Unmixed (u : Units) : Prop :=
  ∀ x ∈ u.atoms, ∀ y ∈ u.atoms, (Family.of? x).isSome → Family.of? x = Family.of? y → x = y

/-- A unit has atomic units of all families of another unit. -/
def Covers (u v : Units) : Prop :=
  ∀ x ∈ v.atoms, (Family.of? x).isSome → ∃ y ∈ u.atoms, Family.of? y = Family.of? x

/-- The unit that is used of a family is one of its atomic units. -/
theorem mem_of_used? (h : u.used? f = some t) : t ∈ u.atoms ∧ Family.of? t = some f :=
  ⟨u.mem_atoms.mpr (List.mem_append.mp (List.mem_of_find?_eq_some h)), by
    simpa using List.find?_some h⟩

/-- No unit of a family is used just if there is none. -/
theorem used?_eq_none_iff : u.used? f = .none ↔ ∀ x ∈ u.atoms, Family.of? x ≠ some f := by
  simp only [used?, List.find?_eq_none, beq_iff_eq, mem_atoms, List.mem_append, ne_eq]

theorem target?_used? (u : Units) (f : Family) : Conversion.target? u.used? f = u.used? f := by
  rw [Conversion.target?]
  cases h : u.used? f with
  | none => rfl
  | some t => simp [mem_of_used? h]

/-- The exponent of a family is that of its one atomic unit. -/
theorem familyExponent_of_only (ht : Family.of? t = some f)
    (h : ∀ x ∈ u.atoms, Family.of? x = some f → x = t) :
    u.familyExponent f = u.exponent t := by
  have hcount (atoms : List String) (hatoms : ∀ x ∈ atoms, x ∈ u.atoms) :
      atoms.countP (fun a => Family.of? a == some f) = atoms.count t :=
    List.countP_congr fun x hx => by
      rw [beq_iff_eq, beq_iff_eq]
      exact ⟨h x (hatoms x hx), fun hxt => hxt ▸ ht⟩
  rw [familyExponent, exponentWhere, exponent, hcount _ fun x hx => u.mem_atoms.mpr (.inl hx),
    hcount _ fun x hx => u.mem_atoms.mpr (.inr hx)]

end Units

namespace Dimension

variable {a b : Dimension} {op : Operator}

section FirstUnits

variable {f : Family} {t x : String}

/-- Converting leaves exponents in families that the other number does not use. -/
theorem exponent_convert_of_unused (h : ∀ f, Family.of? x = some f → a.unit.used? f = none) :
    (b.convert a.unit.used?).unit.exponent x = b.unit.exponent x :=
  exponent_convert_of_no_target fun f hf => (Units.target?_used? _ f).trans (h f hf)

/-- Of a family, nothing but the unit that the other number uses is left. -/
theorem eq_of_mem_convert_used? (ht : a.unit.used? f = some t)
    (hx : x ∈ (b.convert a.unit.used?).unit.atoms) (hf : Family.of? x = some f) : x = t :=
  eq_of_mem_convert ((Units.target?_used? _ f).trans ht) hx hf

/-- A unit into whose first units a conversion leads is unmixed, and covers what is converted. -/
theorem unmixed_of_products_convert (ha : a.unit.IsReduced) (hb : b.unit.IsReduced)
    (h : (b.convert a.unit.used?).unit.products = a.unit.products) :
    a.unit.Unmixed ∧ a.unit.Covers b.unit := by
  have hexponent := Units.exponent_of_products_eq h
  have hmem {x : String} (hx : x ∈ a.unit.atoms) : x ∈ (b.convert a.unit.used?).unit.atoms :=
    (convert_isReduced _ b).mem_atoms_iff.mpr (hexponent x ▸ ha.mem_atoms_iff.mp hx)
  constructor
  · intro x hx y hy hsome hfamily
    obtain ⟨f, hf⟩ := Option.isSome_iff_exists.mp hsome
    cases ht : a.unit.used? f with
    | none => exact absurd hf (Units.used?_eq_none_iff.mp ht x hx)
    | some t =>
      rw [eq_of_mem_convert_used? ht (hmem hx) hf,
        eq_of_mem_convert_used? ht (hmem hy) (hfamily ▸ hf)]
  · intro x hx hsome
    obtain ⟨f, hf⟩ := Option.isSome_iff_exists.mp hsome
    by_contra hnone
    have hunused : a.unit.used? f = none :=
      Units.used?_eq_none_iff.mpr fun y hy hyf => hnone ⟨y, hy, hyf.trans hf.symm⟩
    have hkept := exponent_convert_of_unused (b := b) fun g hg =>
      Option.some.inj (hf.symm.trans hg) ▸ hunused
    rw [hexponent] at hkept
    exact hnone ⟨x, ha.mem_atoms_iff.mpr (hkept ▸ hb.mem_atoms_iff.mp hx), rfl⟩

/-- Homogeneous units become the same, if one has no two of a family and covers the other. -/
theorem exponent_convert_used? (h : b.unit.Homogeneous a.unit) (hunmixed : a.unit.Unmixed)
    (hcovers : a.unit.Covers b.unit) (x : String) :
    (b.convert a.unit.used?).unit.exponent x = a.unit.exponent x := by
  cases hx : Family.of? x with
  | none => rw [exponent_convert_of_unused (by simp [hx]), h.other x hx]
  | some f =>
    cases ht : a.unit.used? f with
    | none =>
      -- neither unit has an atomic unit of the family
      have hanone : x ∉ a.unit.atoms := fun hxa => Units.used?_eq_none_iff.mp ht x hxa hx
      have hbnone : x ∉ b.unit.atoms := fun hxb => by
        obtain ⟨y, hy, hyx⟩ := hcovers x hxb (by rw [hx]; rfl)
        exact Units.used?_eq_none_iff.mp ht y hy (hyx.trans hx)
      rw [exponent_convert_of_unused fun g hg => Option.some.inj (hx.symm.trans hg) ▸ ht,
        Units.exponent_eq_zero_of_notMem hanone, Units.exponent_eq_zero_of_notMem hbnone]
    | some t =>
      -- the left unit has the first one alone of this family
      obtain ⟨htmem, htfamily⟩ := Units.mem_of_used? ht
      have honly : ∀ y ∈ a.unit.atoms, Family.of? y = some f → y = t := fun y hy hyf =>
        hunmixed y hy t htmem (by rw [hyf]; rfl) (hyf.trans htfamily.symm)
      have htarget := (Units.target?_used? a.unit f).trans ht
      by_cases hxt : x = t
      · rw [hxt, exponent_convert_target htarget, h.family f,
          Units.familyExponent_of_only htfamily honly]
      · rw [exponent_convert_of_ne hx htarget hxt,
          Units.exponent_eq_zero_of_notMem fun hxa => hxt (honly x hxa hx)]

/-- **What is converted into the first units of another unit has that unit** just if the unit has
one atomic unit of each family at most, and all families that are to be converted. -/
theorem products_convert_used?_iff (ha : a.unit.IsReduced) (hb : b.unit.IsReduced)
    (h : b.unit.Homogeneous a.unit) :
    (b.convert a.unit.used?).unit.products = a.unit.products ↔
    a.unit.Unmixed ∧ a.unit.Covers b.unit :=
  ⟨unmixed_of_products_convert ha hb, fun ⟨hunmixed, hcovers⟩ =>
    (convert_isReduced _ b).products_eq ha (exponent_convert_used? h hunmixed hcovers)⟩

end FirstUnits

/-! ## Adding and subtracting -/

/-- What a sum is if its left side has a unit. -/
theorem operate_of_unit (hop : op = .add ∨ op = .sub) (strict : Bool) (b : Dimension)
    (ha : a.unit.isEmpty = false) :
    operate op strict a b =
      if b.unit.numerator = [] ∧
      a.unit.denominator = [] then .ok ⟨op.apply a.value b.value, a.unit.normalize⟩
      else if strict ∧ b.unit.text ≠ a.unit.normalize.text then
        .error (.incompatibleUnits a.unit.normalize.text b.unit.text none)
      else .ok ⟨op.apply a.value (b.convert a.unit.used?).value, a.unit.normalize⟩ := by
  have hcombine : operate op strict a b = combine op strict a b := by
    rcases hop with rfl | rfl <;> rfl
  have hdenominator : a.unit.normalize.denominator = [] ↔ a.unit.denominator = [] :=
    Units.sorted_eq_nil_iff
  rw [hcombine, combine, ha]
  simp [hdenominator]

/-- Units that are the same in canonical units have as many atomic units above, less those below. -/
theorem length_of_products_unify_eq (h : a.unify.unit.products = b.unify.unit.products) :
    (a.unit.numerator.length : Int) - a.unit.denominator.length
      = b.unit.numerator.length - b.unit.denominator.length := by
  have hcount := Units.exponentWhere_congr (Units.exponent_of_products_eq h) fun _ => true
  rw [unify, unify, exponentWhere_convert, exponentWhere_convert] at hcount
  simpa [Units.exponentWhere, Function.comp_def] using hcount

/-- **When both numbers are added in the unit of the sum.**  Let two numbers be calculated, the left
one with a unit, and let their units be the same in canonical units.  The sum has the unit of the
left one, and the right one is added as it is converted into the first atomic unit of each family
there.  That brings it into the unit of the sum just if the left unit has one atomic unit of each
family at most, and each family of the right unit. -/
theorem sum_in_left_unit_iff (hop : op = .add ∨ op = .sub) (ha : Calculated a) (hb : Calculated b)
    (hunit : a.unit.isEmpty = false) (h : a.unify.unit.products = b.unify.unit.products) :
    operate op false a b = .ok ⟨op.apply a.value (b.convert a.unit.used?).value, a.unit.normalize⟩ ∧
    a.unit.normalize.products = a.unit.products ∧
    ((b.convert a.unit.used?).unit.products = a.unit.products ↔
      a.unit.Unmixed ∧ a.unit.Covers b.unit) := by
  refine ⟨?_, ha.reduced.products_normalize,
    products_convert_used?_iff ha.reduced hb.reduced (products_unify_eq_iff.mp h).symm⟩
  -- with nothing above on the right and nothing below on the left, the left unit would have nothing
  -- above either
  have hplain : ¬(b.unit.numerator = [] ∧ a.unit.denominator = []) := by
    rintro ⟨habove, hbelow⟩
    have hlength := length_of_products_unify_eq h
    rw [habove, hbelow, List.length_nil] at hlength
    have hnothing : a.unit.numerator = [] := List.eq_nil_of_length_eq_zero (by omega)
    simp [Units.isEmpty, hnothing, hbelow] at hunit
  rw [operate_of_unit hop false b hunit, if_neg hplain]
  simp

/-- Pixels per second are converted into centimeters per millisecond to be added to these. -/
theorem sum_in_left_unit_iff_speeds :
    ∃ fast slow : Dimension, Calculated fast ∧ Calculated slow ∧ fast.unit.isEmpty = false ∧
      fast.unify.unit.products = slow.unify.unit.products ∧
      operate .add false fast slow
        = .ok ⟨fast.value + (slow.convert fast.unit.used?).value, fast.unit.normalize⟩ ∧
      fast.unit.products = (["cm"], ["ms"]) ∧ (slow.convert fast.unit.used?).unit.products =
        (["cm"], ["ms"]) := by
  let fast : Dimension := ⟨1 / 1, (Units.ofAtom "cm").div (.ofAtom "ms")⟩
  let slow : Dimension := ⟨1 / 1, (Units.ofAtom "px").div (.ofAtom "s")⟩
  have hfast : Calculated fast :=
    @Calculated.operate .div false _ _ _ (.one "cm" rfl rfl) (.one "ms" rfl rfl) rfl
  have hslow : Calculated slow :=
    @Calculated.operate .div false _ _ _ (.one "px" rfl rfl) (.one "s" rfl rfl) rfl
  have hfast_unit : fast.unit.products = (["cm"], ["ms"]) :=
    Units.products_div_ofAtom (by decide) (by decide) (by decide)
  have hslow_unit : slow.unit.products = (["px"], ["s"]) :=
    Units.products_div_ofAtom (by decide) (by decide) (by decide)
  obtain ⟨hfast_above, hfast_below⟩ := Prod.mk.inj hfast_unit
  obtain ⟨hslow_above, hslow_below⟩ := Prod.mk.inj hslow_unit
  have hfast_atoms {x : String} : x ∈ fast.unit.atoms ↔ x = "cm" ∨ x = "ms" := by
    simp [Units.mem_atoms, hfast_above, hfast_below]
  have hslow_atoms {x : String} : x ∈ slow.unit.atoms ↔ x = "px" ∨ x = "s" := by
    simp [Units.mem_atoms, hslow_above, hslow_below]
  have hunit : fast.unit.isEmpty = false := by rw [Units.isEmpty, hfast_above]; rfl
  have hunify : fast.unify.unit.products = slow.unify.unit.products := by
    refine products_unify_eq_iff.mpr
      (Units.homogeneous_of_families (fun x hx => ?_) (fun x hx => ?_) fun f => ?_)
    · rcases hfast_atoms.mp hx with rfl | rfl <;> rfl
    · rcases hslow_atoms.mp hx with rfl | rfl <;> rfl
    · rw [Units.familyExponent, Units.familyExponent, Units.exponentWhere, Units.exponentWhere,
        hfast_above, hfast_below, hslow_above, hslow_below]
      cases f <;> rfl
  have hunmixed : fast.unit.Unmixed := by
    intro x hx y hy _ hxy
    rcases hfast_atoms.mp hx with rfl | rfl <;> rcases hfast_atoms.mp hy with rfl | rfl
    · rfl
    · cases hxy
    · cases hxy
    · rfl
  have hcovers : fast.unit.Covers slow.unit := by
    intro x hx _
    rcases hslow_atoms.mp hx with rfl | rfl
    · exact ⟨"cm", hfast_atoms.mpr (.inl rfl), rfl⟩
    · exact ⟨"ms", hfast_atoms.mpr (.inr rfl), rfl⟩
  obtain ⟨hsum, -, hiff⟩ := sum_in_left_unit_iff (.inl rfl) hfast hslow hunit hunify
  exact ⟨fast, slow, hfast, hslow, hunit, hunify, hsum, hfast_unit,
    (hiff.mpr ⟨hunmixed, hcovers⟩).trans hfast_unit⟩

/-- Centimeters times pixels are not converted into their own unit when they are added to
themselves. -/
theorem sum_of_areas_in_other_unit :
    ∃ area : Dimension, Calculated area ∧ area.unit.isEmpty = false ∧
      operate .add false area area
        = .ok ⟨area.value + (area.convert area.unit.used?).value, area.unit.normalize⟩ ∧
      (area.convert area.unit.used?).unit.products ≠ area.unit.products := by
  let area : Dimension := ⟨1 * 1, (Units.ofAtom "cm").mul (.ofAtom "px")⟩
  have harea : Calculated area :=
    @Calculated.operate .mul false _ _ _ (.one "cm" rfl rfl) (.one "px" rfl rfl) rfl
  have hcm : area.unit.exponent "cm" = 1 := by
    rw [Units.exponent_mul, Units.exponent_ofAtom, Units.exponent_ofAtom]
    decide
  have hpx : area.unit.exponent "px" = 1 := by
    rw [Units.exponent_mul, Units.exponent_ofAtom, Units.exponent_ofAtom]
    decide
  have hcm_mem : "cm" ∈ area.unit.atoms := Units.mem_atoms_of_exponent_ne_zero (by rw [hcm]; decide)
  have hpx_mem : "px" ∈ area.unit.atoms := Units.mem_atoms_of_exponent_ne_zero (by rw [hpx]; decide)
  have hunit : area.unit.isEmpty = false := Units.isEmpty_of_mem_atoms hcm_mem
  have hnumerator : area.unit.numerator ≠ [] := by
    intro hnone
    have hcount := harea.reduced.count_numerator "cm"
    rw [hnone, hcm] at hcount
    cases hcount
  refine ⟨area, harea, hunit, ?_, fun h => ?_⟩
  · rw [operate_of_unit (.inl rfl) false area hunit, if_neg fun h => hnumerator h.1]
    rfl
  · obtain ⟨hunmixed, -⟩ :=
      (products_convert_used?_iff harea.reduced harea.reduced (Units.homogeneous_refl _)).mp h
    exact absurd (hunmixed "cm" hcm_mem "px" hpx_mem rfl rfl) (by decide)

/-! ## Strict units -/

/-- **What strict units refuse.**  Let two numbers be calculated, the left one with a unit.  With
strict units they have a sum just if their units are the same, or if the right unit has nothing
above and the left unit nothing below. If they have none, the error names both units. -/
theorem strict_sum_iff (hop : op = .add ∨ op = .sub) (ha : Calculated a) (hb : Calculated b)
    (hunit : a.unit.isEmpty = false) :
    ((∃ d, operate op true a b = .ok d) ↔
      a.unit.products = b.unit.products ∨ (a.unit.denominator = [] ∧ b.unit.numerator = [])) ∧
    ((¬∃ d, operate op true a b = .ok d) →
      operate op true a b = .error (.incompatibleUnits a.unit.text b.unit.text none)) := by
  have htext : a.unit.normalize.text = a.unit.text :=
    Units.text_eq_of_products_eq ha.reduced.products_normalize
  have htexts : b.unit.text = a.unit.text ↔ a.unit.products = b.unit.products :=
    ⟨fun h => Units.products_eq_of_text_eq ha.legible hb.legible h.symm, fun h =>
      Units.text_eq_of_products_eq h.symm⟩
  rw [operate_of_unit hop true b hunit, htext, and_comm (a := a.unit.denominator = [])]
  by_cases hplain : b.unit.numerator = [] ∧ a.unit.denominator = []
  · rw [if_pos hplain]
    exact ⟨⟨fun _ => .inr hplain, fun _ => ⟨_, rfl⟩⟩, fun hnone => absurd ⟨_, rfl⟩ hnone⟩
  · rw [if_neg hplain, or_iff_left hplain, ← htexts]
    by_cases hsame : b.unit.text = a.unit.text
    · rw [if_neg fun h => h.2 hsame]
      exact ⟨⟨fun _ => hsame, fun _ => ⟨_, rfl⟩⟩, fun hnone => absurd ⟨_, rfl⟩ hnone⟩
    · rw [if_pos ⟨rfl, hsame⟩]
      refine ⟨⟨fun h => ?_, fun h => absurd h hsame⟩, fun _ => rfl⟩
      obtain ⟨d, hd⟩ := h
      cases hd

/-- Pixels are subtracted from pixels, and seconds are not. -/
theorem strict_sum_iff_lengths :
    operate .sub true (.ofAtom 1 "px") (.ofAtom 1 "s") = .error (.incompatibleUnits "px" "s" none) ∧
      ∃ d, operate .sub true (.ofAtom 1 "px") (.ofAtom 1 "px") = .ok d := by
  have hpx : (Units.ofAtom "px").products = (["px"], []) := Units.products_ofAtom (by decide)
  have hs : (Units.ofAtom "s").products = (["s"], []) := Units.products_ofAtom (by decide)
  have hpx_text := Units.text_eq_of_products_eq (v := ⟨["px"], [], none⟩) hpx
  have hs_text := Units.text_eq_of_products_eq (v := ⟨["s"], [], none⟩) hs
  have hunit : (Units.ofAtom "px").isEmpty = false := by
    rw [Units.isEmpty, (Prod.mk.inj hpx).1]; rfl
  obtain ⟨hiff, herror⟩ := strict_sum_iff (.inr rfl) (.one "px" rfl rfl) (.one "s" rfl rfl) hunit
  obtain ⟨hiff', -⟩ := strict_sum_iff (.inr rfl) (.one "px" rfl rfl) (.one "px" rfl rfl) hunit
  refine ⟨?_, hiff'.mpr (.inl rfl)⟩
  have hrefused : ¬∃ d, operate .sub true (.ofAtom 1 "px") (.ofAtom 1 "s") = .ok d := by
    rw [hiff]
    rintro (hsame | ⟨-, hnone⟩)
    · exact absurd (hpx.symm.trans (hsame.trans hs)) (by decide)
    · exact absurd ((Prod.mk.inj hs).1.symm.trans hnone) (by decide)
  rw [herror hrefused, ofAtom, ofAtom, hpx_text, hs_text]
  rfl

/-- Strict units do not keep a frequency from being added to a length. -/
theorem strict_sum_of_length_and_frequency :
    ∃ length frequency sum : Dimension, Calculated length ∧ Calculated frequency ∧
      length.unit.isEmpty = false ∧ frequency.unit.isEmpty = false ∧
      length.unit.products ≠ frequency.unit.products ∧
      operate .add true length frequency = .ok sum := by
  let frequency : Dimension := ⟨1 / 1, Units.none.div (.ofAtom "s")⟩
  have hone : Calculated (.ofAtom 1 "") :=
    .literal (t := ⟨.number, 0, 1, "1"⟩) ⟨['1'], 1, rfl, rfl⟩ (.inr rfl) rfl
  have hfrequency : Calculated frequency :=
    @Calculated.operate .div true _ _ _ hone (.one "s" rfl rfl) rfl
  have hlength_unit : (Units.ofAtom "px").products = (["px"], []) :=
    Units.products_ofAtom (by decide)
  have hfrequency_unit : frequency.unit.products = ([], ["s"]) := by
    let inverse : Units := ⟨[], ["s"], none⟩
    have hinverse : inverse.IsReduced :=
      ⟨.nil, List.pairwise_singleton _ _, List.disjoint_nil_left _⟩
    refine (Units.div_isReduced _ _).products_eq hinverse fun x => ?_
    rw [Units.exponent_div, Units.exponent_ofAtom]
    simp only [inverse, Units.none, Units.exponent, List.count_singleton, List.count_nil,
      beq_iff_eq]
    split_ifs <;> simp_all
  obtain ⟨hlength_above, hlength_below⟩ := Prod.mk.inj hlength_unit
  obtain ⟨hfrequency_above, hfrequency_below⟩ := Prod.mk.inj hfrequency_unit
  have hunit : (Units.ofAtom "px").isEmpty = false := by rw [Units.isEmpty, hlength_above]; rfl
  have hother : frequency.unit.isEmpty = false := by
    rw [Units.isEmpty, hfrequency_below, Bool.and_comm]; rfl
  refine ⟨.ofAtom 1 "px", frequency, _, .one "px" rfl rfl, hfrequency, hunit, hother, ?_,
    (operate_of_unit (.inl rfl) true frequency hunit).trans
      (if_pos ⟨hfrequency_above, hlength_below⟩)⟩
  rw [hfrequency_unit]
  exact fun h => absurd (hlength_unit.symm.trans h) (by decide)

end Dimension

end LessCss
