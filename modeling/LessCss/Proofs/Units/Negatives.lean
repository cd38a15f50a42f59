import LessCss.Evaluation
import LessCss.Reading.Value
import LessCss.Proofs.Units.Sums

/-!
# The unit of a negative

A minus sign before a number in the text only changes the number.  Before anything else, what stands
there is evaluated and multiplied by minus one from the left.  That keeps both lists of its unit,
but a product takes its fallback from its left factor, and minus one has none
(`Evaluation.eval_negative_exact`).  So with strict units nothing changes in print, and otherwise
the unit that is printed stays the same just if the fallback is not needed for it: if there is a
single atomic unit above, or no fallback, or if the fallback is the first atomic unit below.

That nothing else happens to be printed the same rests on atomic units having names.  A calculation
takes all names from its operands, and a conversion only puts in names of families
(`Dimension.Obtained.not_mentions_empty`).
-/

namespace LessCss

namespace Units

variable {u : Units} {x : String}

/-! ## The names in a unit -/

/-- A name stands above or below, or is the fallback. -/
def Mentions (u : Units) (x : String) : Prop := x ∈ u.atoms ∨ u.fallback = some x

theorem mentions_of_fallback_normalize (h : u.normalize.fallback = some x) : u.Mentions x := by
  rcases Option.or_eq_some_iff.mp h with h | ⟨-, h⟩
  · exact .inr h
  · exact .inl (u.mem_atoms.mpr (.inl ((sorted_perm _).mem_iff.mp (List.mem_of_head? h))))

/-- Putting a unit in order mentions no other names. -/
theorem mentions_of_normalize (h : u.normalize.Mentions x) : u.Mentions x := by
  rcases h with h | h
  · refine .inl (u.mem_atoms.mpr (((mem_atoms _).mp h).imp ?_ ?_))
    · exact (sorted_perm _).mem_iff.mp
    · exact (sorted_perm _).mem_iff.mp
  · exact mentions_of_fallback_normalize h

theorem not_mentions_none : ¬ none.Mentions x := by
  rintro (h | h)
  · rcases (mem_atoms _).mp h with h | h <;> cases h
  · cases h

theorem not_mentions_empty_ofAtom (atom : String) : ¬ (ofAtom atom).Mentions "" := by
  rw [ofAtom]
  split
  · exact not_mentions_none
  · next hatom =>
    intro h
    have hone : (⟨[atom], [], .none⟩ : Units).Mentions "" := mentions_of_normalize h
    rcases hone with hone | hone
    · obtain rfl : "" = atom := by simpa using (mem_atoms _).mp hone
      exact hatom rfl
    · cases hone

/-! ## Without the fallback -/

/-- A unit without its fallback. -/
def bare (u : Units) : Units := ⟨u.numerator, u.denominator, .none⟩

/-- A unit of one atomic unit above is written as it is. -/
theorem printed_of_single {atom : String} (h : u.numerator = [atom]) (strict : Bool) :
    u.printed strict = atom := by
  rw [printed, h]

/-- Any other unit is written as its fallback or as what stands below, or not at all if strict. -/
theorem printed_of_not_single (h : ¬ ∃ atom, u.numerator = [atom]) (strict : Bool) :
    u.printed strict = if strict then "" else (u.fallback.or u.denominator.head?).getD "" := by
  unfold printed
  split
  · next atom hatom => exact absurd ⟨atom, hatom⟩ h
  · rfl

/-- **What is printed without the fallback** is the same just if the fallback is not needed. -/
theorem printed_without_fallback_iff (h : ¬ u.Mentions "") (strict : Bool) :
    u.bare.printed strict = u.printed strict ↔
      strict = true ∨ (∃ atom, u.numerator = [atom]) ∨ u.fallback = .none ∨
      u.fallback = u.denominator.head? := by
  by_cases hsingle : ∃ atom, u.numerator = [atom]
  · obtain ⟨atom, hatom⟩ := hsingle
    have hsame : u.bare.printed strict = u.printed strict :=
      (printed_of_single (u := u.bare) hatom strict).trans (printed_of_single hatom strict).symm
    exact iff_of_true hsame (.inr (.inl ⟨atom, hatom⟩))
  · rw [printed_of_not_single hsingle, printed_of_not_single (u := u.bare) hsingle]
    cases strict with
    | true => exact iff_of_true rfl (.inl rfl)
    | false =>
      simp only [bare, Option.none_or]
      cases hfallback : u.fallback with
      | none => simp
      | some f =>
        have hf : f ≠ "" := fun hf => h (.inr (hf ▸ hfallback))
        cases u.denominator.head? with
        | none => simpa [hsingle] using hf.symm
        | some g => simpa [hsingle] using eq_comm

/-- A unit times which no unit is multiplied keeps its lists, but not its fallback. -/
theorem none_mul (h : u.IsReduced) : none.mul u = u.bare := by
  have hproducts : (none.mul u).products = u.products :=
    (mul_isReduced _ _).products_eq h fun a => (exponent_mul _ _ a).trans (Int.zero_add _)
  obtain ⟨hnumerator, hdenominator⟩ := Prod.mk.inj hproducts
  have hfallback : (none.mul u).fallback = .none := congrArg List.head? (sorted_eq_nil_iff.mpr rfl)
  rw [bare, ← hnumerator, ← hdenominator, ← hfallback]

end Units

namespace Dimension

variable {a b d : Dimension} {x : String}

/-- The fallback of a result is a name that one of the operands mentions. -/
theorem fallback_operate {op : Operator} {strict : Bool} (h : operate op strict a b = .ok d)
    (hx : d.unit.fallback = some x) : a.unit.Mentions x ∨ b.unit.Mentions x := by
  have hcombine {op : Operator} (h : combine op strict a b = .ok d) : a.unit.Mentions x ∨
      b.unit.Mentions x := by
    unfold combine at h
    split at h
    · cases h
      rcases Option.or_eq_some_iff.mp hx with hx | ⟨-, hx⟩
      · exact .inl (.inr hx)
      · exact .inr (Units.mentions_of_fallback_normalize hx)
    · dsimp only at h
      split at h
      · cases h
        exact .inl (Units.mentions_of_fallback_normalize hx)
      · split at h <;> cases h
        exact .inl (Units.mentions_of_fallback_normalize hx)
  cases op with
  | add | sub => exact hcombine h
  | mul | div =>
    cases h
    exact .inl (Units.mentions_of_fallback_normalize hx)

/-- A calculation brings no name in. -/
theorem mentions_of_operate {op : Operator} {strict : Bool} (ha : a.unit.IsReduced)
    (hb : b.unit.IsReduced) (h : operate op strict a b = .ok d) (hx : d.unit.Mentions x) :
    a.unit.Mentions x ∨ b.unit.Mentions x := by
  rcases hx with hx | hx
  · have hexponent := (operate_isReduced ha hb h).mem_atoms_iff.mp hx
    exact (exponent_ne_zero_of_operate h hexponent).imp
      (fun h => .inl (Units.mem_atoms_of_exponent_ne_zero h))
      fun h => .inl (Units.mem_atoms_of_exponent_ne_zero h)
  · exact fallback_operate h hx

/-- A conversion brings no names in but those of families. -/
theorem mentions_of_convert {c : Conversion} (hx : (d.convert c).unit.Mentions x)
    (hfamily : Family.of? x = none) :
    d.unit.Mentions x := by
  rcases hx with hx | hx
  · have hexponent := (convert_isReduced c d).mem_atoms_iff.mp hx
    rw [exponent_convert_of_no_target (by simp [hfamily])] at hexponent
    exact .inl (Units.mem_atoms_of_exponent_ne_zero hexponent)
  · rw [unit_convert] at hx
    exact Units.mentions_of_fallback_normalize hx

/-- **No unit of a number that is obtained has an empty name in it.** -/
theorem Obtained.not_mentions_empty (h : Obtained d) : ¬ d.unit.Mentions "" := by
  induction h with
  | read h =>
    obtain ⟨value, atom, rfl⟩ := exists_ofAtom_of_read h
    exact Units.not_mentions_empty_ofAtom atom
  | ofAtom value atom => exact Units.not_mentions_empty_ofAtom atom
  | ofFloat value => exact Units.not_mentions_none
  | operate ha hb h iha ihb =>
    exact fun hx => (mentions_of_operate ha.isReduced hb.isReduced h hx).elim iha ihb
  | convert c _ ih => exact fun hx => ih (mentions_of_convert hx rfl)
  | convertTo target _ ih =>
    unfold Dimension.convertTo
    split
    · exact fun hx => ih (mentions_of_convert hx rfl)
    · exact ih
  | unify _ ih => exact fun hx => ih (mentions_of_convert hx rfl)
  | normalize _ ih => exact fun hx => ih (Units.mentions_of_normalize hx)

end Dimension

namespace Evaluation

variable {c : Context} {d : Dimension}

/-- The negative of a number with a reduced unit has this unit without its fallback. -/
theorem negative_of_reduced (hmul : c.computes (some .mul) = true) (hd : d.unit.IsReduced) :
    negative c (.dimension d) = .ok (.dimension ⟨-1 * d.value, d.unit.bare⟩) := by
  have hproduct : Dimension.operate .mul c.style.strict (.ofFloat (-1)) d = .ok
      ⟨-1 * d.value, d.unit.bare⟩ :=
    congrArg (fun unit => Except.ok (⟨-1 * d.value, unit⟩ : Dimension)) (Units.none_mul hd)
  unfold negative
  simp only [hmul, hproduct]
  rfl

/-- **What a minus sign before a value does to its unit.**  Let products be carried out, and let
what stands behind the sign come to a number.  The number is multiplied by minus one, its unit keeps
both lists and loses the fallback.  So the unit is printed as before just if units are strict, or
there is a single atomic unit above, or there was no fallback, or it was the first atomic unit
below.  A minus sign before a number in the text leaves the whole unit. -/
theorem eval_negative_exact (hd : Dimension.Obtained d) (hmul : c.computes (some .mul) = true)
    {deeper : Deeper} {n : Node} {y : Yield} (hn : eval deeper c n = .ok y)
    (hy : y.toNode = .dimension d) :
    eval deeper c (.negative n) = .ok (.one (.dimension ⟨-1 * d.value, d.unit.bare⟩)) ∧
    (∀ strict, d.unit.bare.printed strict = d.unit.printed strict ↔
      strict = true ∨ (∃ atom, d.unit.numerator = [atom]) ∨ d.unit.fallback = none ∨
        d.unit.fallback = d.unit.denominator.head?) ∧
    Reading.negated (.dimension d) = .dimension ⟨-d.value, d.unit⟩ := by
  refine ⟨?_, Units.printed_without_fallback_iff hd.not_mentions_empty, rfl⟩
  rw [eval, hn]
  change (do return Yield.one (← negative c y.toNode)) = _
  rw [hy, negative_of_reduced hmul hd.isReduced]
  rfl

/-- Minus one pixel is printed in pixels. -/
theorem eval_negative_exact_length :
    let c := Context.ofOptions {}
    c.computes (some .mul) = true ∧ ∃ e : Dimension,
      eval (.within 0) c (.negative (.dimension (.ofAtom 1 "px"))) = .ok (.one (.dimension e)) ∧
        e.unit.printed false = (Units.ofAtom "px").printed false := by
  intro c
  have hmul : c.computes (some .mul) = true := by decide
  have hpx : (Units.ofAtom "px").numerator = ["px"] :=
    (Prod.mk.inj (Units.products_ofAtom (by decide))).1
  obtain ⟨heval, hprinted, -⟩ :=
    @eval_negative_exact c _ (.ofAtom 1 "px") hmul (.within 0)
      (.dimension (.ofAtom 1 "px")) _ rfl rfl
  exact ⟨hmul, _, heval, (hprinted false).mpr (.inr (.inl ⟨"px", hpx⟩))⟩

/-- Centimeters times pixels are printed in centimeters, and minus as many of them without unit. -/
theorem negative_of_area_without_unit : ∃ area e : Dimension, Dimension.Calculated area ∧
    negative (.ofOptions {}) (.dimension area) = .ok (.dimension e) ∧
      area.unit.printed false = "cm" ∧ e.unit.printed false = "" := by
  let area : Dimension := ⟨1 * 1, (Units.ofAtom "cm").mul (.ofAtom "px")⟩
  have harea : Dimension.Calculated area :=
    @Dimension.Calculated.operate .mul false _ _ _ (.one "cm" rfl rfl) (.one "px" rfl rfl) rfl
  have hunit : area.unit.products = (["cm", "px"], []) := by
    let product : Units := ⟨["cm", "px"], [], none⟩
    have hproduct : product.IsReduced := ⟨by decide, .nil, List.disjoint_nil_right _⟩
    refine harea.reduced.products_eq hproduct fun a => ?_
    rw [Units.exponent_mul, Units.exponent_ofAtom, Units.exponent_ofAtom]
    simp only [product, Units.exponent, List.count_cons, List.count_nil, beq_iff_eq]
    split_ifs <;> simp_all
  have hfallback : area.unit.fallback = some "cm" := by
    simp [area, Units.mul, Units.cancel, Units.normalize, Units.ofAtom, Units.ofProducts,
      Units.sorted]
  obtain ⟨hnumerator, hdenominator⟩ := Prod.mk.inj hunit
  have hseveral : ¬ ∃ atom, area.unit.numerator = [atom] := by simp [hnumerator]
  refine ⟨area, _, harea, negative_of_reduced (by decide) harea.reduced, ?_, ?_⟩
  · rw [Units.printed_of_not_single hseveral, hfallback]
    rfl
  · rw [Units.printed_of_not_single (u := area.unit.bare) hseveral]
    simp [Units.bare, hdenominator]

end Evaluation

end LessCss
