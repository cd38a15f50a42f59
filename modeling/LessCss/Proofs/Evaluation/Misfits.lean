import LessCss.Proofs.Evaluation.Located
import LessCss.Proofs.Grouping.Signs
import LessCss.Proofs.Parsing.Totality

/-!
# Where units do not fit

Units that do not fit are found out in the arithmetic of numbers, which knows of no place.  The
operation that has it done knows its own, and no step on the way out gives the error another one.
In a stylesheet that was read an operation has its place from the sign that it was read off, and
evaluation makes no operations of its own.  So the error of a compilation, if it is one of units, is
at a plus or a minus of the source (`compile_misfit`).
-/

namespace LessCss

open Evaluation

/-! ## Errors of reading and writing -/

/-- A text that is not read has an error that is one of reading. -/
theorem Ruleset.ofText_fails (source : String) :
    Fails (Ruleset.ofText source) fun e => e.cls = .parse := by
  cases hclean : (Parse.ofText source).hasErrors with
  | false =>
    have hheeds := heeds_ofText hclean
    unfold Heeds at hheeds
    split at hheeds
    · obtain ⟨r, hr⟩ := hheeds
      rw [hr]
      exact .ok r
    · rw [hheeds]
      exact .error rfl
  | true =>
    unfold Ruleset.ofText
    dsimp only
    split
    · next e he =>
      unfold Parse.firstError? at he
      split at he <;> cases he
      · exact .error rfl
      · exact .error rfl
    · next hnone =>
      obtain ⟨hstrays, hmismatches⟩ := Parse.clean_of_firstError? hnone
      simp [Parse.hasErrors, hstrays, hmismatches] at hclean

/-- Writing a stylesheet fails in ordinary ways only. -/
theorem Css.stylesheet_fails (s : Style) (minify : Bool) (rules : List Node) :
    Fails (stylesheet s minify rules) Error.Ordinary := by
  refine .bind (.mapM fun n _ => render_fails s none n) fun imports => ?_
  refine .bind (.mapM fun n _ => render_fails s _ n) fun texts => ?_
  split
  · exact .ok _
  · exact .ok _

/-! ## Errors of evaluation -/

/-- Units that do not fit have a place, and it is that of a plus or a minus of the source. -/
def Error.Located (source : String) (e : Error) : Prop :=
  ∀ left right offset, e = .incompatibleUnits left right offset → ∃ p, offset = some p ∧
    Lexing.SignAt source p

theorem Error.located_of_cls {source : String} {e : Error} (h : e.cls ≠ .incompatibleUnits) :
    e.Located source := by
  rintro left right offset rfl
  exact absurd rfl h

/-- An error that has a place keeps it when a place is added. -/
theorem Error.Located.locate {source : String} {e : Error} (h : e.Located source) (offset : Nat) :
    (e.locate offset).Located source := by
  unfold Error.locate
  split
  · -- an error of units that has no place is not located
    obtain ⟨p, hp, -⟩ := h _ _ _ rfl
    cases hp
  · exact h

variable {source : String}

/-- Evaluation makes no operation of values whose place is not that of a sign. -/
theorem kept_signed : Kept (Node.Signed source) where
  dimension _ := trivial
  expression _ _ _ _ := trivial
  list _ := trivial
  paren _ := trivial
  negative _ := trivial
  quoted _ _ := trivial
  url _ _ := trivial
  operation h := h
  call _ := trivial

/-- An operation that has a sign where it says gives its errors that place. -/
theorem raised_located : Raised (Node.Signed source) (Error.Located source) where
  ordinary h := Error.located_of_cls h.units
  unfinished := Error.located_of_cls (by decide)
  operation {c op left right v w spaced offset} hsigned := by
    refine (operation_fails c op v w spaced offset).mono fun e he => ?_
    obtain ⟨hop, _, _, rfl⟩ := he
    rintro _ _ _ ⟨⟩
    exact ⟨offset, rfl, hsigned hop⟩

/-- **Units that do not fit are reported at their operator.**  If compiling a source under some
options fails because two units do not fit, then the error has a place, and that is where a plus or
a minus of the source starts. -/
theorem compile_misfit (o : Options) (source : String) (left right : String) (offset : Option Nat)
    (h : compile o source = .error (.incompatibleUnits left right offset)) :
    ∃ x ∈ (Lexing.ofText source).tokens, (x.kind = .plus ∨ x.kind = .minus) ∧
    offset = some x.start := by
  have hcompile : Fails (compile o source) (Error.Located source) := by
    have hread : Fails (Ruleset.ofText source) (Error.Located source) := by
      refine (Ruleset.ofText_fails source).mono fun e he => Error.located_of_cls ?_
      rw [he]
      decide
    refine (Ends.of_fails hread).fails fun sheet hsheet => ?_
    obtain ⟨rules, rfl, hrules⟩ := Ruleset.meets_ofText (Reading.readsValues_signed source)
      (Parse.soundIn_ofText source) hsheet
    refine .bind
      (Ruleset.evaluate_fails kept_signed raised_located (fun offset e he => he.locate offset)
        hrules o) ?_
    exact fun result => (Css.stylesheet_fails _ _ _).mono fun e he => Error.located_of_cls he.units
  obtain ⟨p, rfl, x, hx, hkind, rfl⟩ := hcompile _ h left right offset rfl
  exact ⟨x, hx, hkind, rfl⟩

/-- A sum in a definition, which the default of a parameter refers to, which in turn fills the hole
of a string. -/
theorem compile_misfit_mixin :
    let source := "@a:(1px + 1s);.m(@b:@a)\x7bw:\"@\x7bb\x7d\"\x7d.c\x7b.m()\x7d"
    ∃ left right offset, compile { strictUnits := true } source =
      .error (.incompatibleUnits left right offset) ∧
      offset = some 8 ∧
      ∃ x ∈ (Lexing.ofText source).tokens, (x.kind = .plus ∨ x.kind = .minus) ∧
        offset = some x.start := by
  intro source
  have hcheck : (compile { strictUnits := true } source).mapError (Error.isMisfit (some 8)) =
      .error true := by
    decide +kernel
  obtain ⟨e, he, hmisfit⟩ := eq_error_of_mapError hcheck
  obtain ⟨left, right, rfl⟩ := Error.isMisfit_iff.mp hmisfit
  exact ⟨left, right, some 8, he, rfl, compile_misfit _ source left right (some 8) he⟩

end LessCss
