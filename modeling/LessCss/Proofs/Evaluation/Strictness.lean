import LessCss.Proofs.Evaluation.Holes
import LessCss.Proofs.Evaluation.Styles

/-!
# Strict units only refuse

Strict units are looked at in sums, before the second operand is converted, and where the text of a
value is written into another text.  What a sum gives with strict units it gives without
(`Dimension.operate_lenient`).  So two runs of evaluation, one with strict units and one without,
keep in step in a stylesheet in which nothing is written as long as the strict one goes on, and what
it ends with is what the other one ends with (`Ruleset.evaluate_lenient`).
-/

namespace LessCss

open Context

/-! ## Sums -/

namespace Dimension

variable {op : Operator} {strict strict' : Bool} {a b d : Dimension}

/-- What the sum of two numbers is where units are strict it is where they are not. -/
theorem combine_lenient (hstrict : strict = true → strict' = true)
    (h : combine op strict' a b = .ok d) :
    combine op strict a b = .ok d := by
  unfold combine at h ⊢
  dsimp only at h ⊢
  split
  · next hempty => rwa [if_pos hempty] at h
  · next hunit =>
    rw [if_neg hunit] at h
    split
    · next hplain => rwa [if_pos hplain] at h
    · next hplain =>
      rw [if_neg hplain] at h
      -- the strict sum has not been refused, so the two units are the same or neither sum is strict
      have haccepted : ¬ (strict' && b.unit.text != a.unit.normalize.text) = true := by
        intro hrefused
        rw [if_pos hrefused] at h
        cases h
      have hlenient : ¬ (strict && b.unit.text != a.unit.normalize.text) = true := by
        simp only [Bool.and_eq_true, not_and] at haccepted ⊢
        exact fun hs => haccepted (hstrict hs)
      rw [if_neg haccepted] at h
      rwa [if_neg hlenient]

/-- An operation that is possible with strict units has the same result without. -/
theorem operate_lenient (hstrict : strict = true → strict' = true)
    (h : operate op strict' a b = .ok d) :
    operate op strict a b = .ok d := by
  cases op with
  | add | sub => exact combine_lenient hstrict h
  | mul | div => exact h

end Dimension

/-- Evaluation without strict units gives what evaluation with strict units gives, if that gives
anything. -/
theorem Lockstep.allows :
    Lockstep (fun _ x y => ∀ a, y = .ok a → x = .ok a) fun strict strict' =>
      strict = true → strict' = true where
  steps := .allows
  unfinished := nofun
  sums hstrict _ _ _ _ h := Dimension.operate_lenient hstrict h

/-! ## Stylesheets -/

/-- Whether a node is a call of `unit`, however it is spelled. -/
def Node.changesUnit : Node → Bool
  | .call name _ _ => name.map Char.toLower == "unit"
  | _ => false

/-- A value that asks for variables by name only and changes no unit writes no text. -/
theorem Node.AsksByName.writes {n : Node} (h : n.AsksByName) (hunit : n.changesUnit = false) :
    n.writes = false := by
  rcases h with hasked | ⟨name, offset, rfl⟩
  · cases n with
    | call => exact hunit
    | reference => rfl
    | _ => simp [Node.writes, hasked]
  · rfl

namespace Ruleset

/-- **Strict units only refuse.**  If nowhere in a source an at sign stands before a brace and
`unit` is not called in it, then the stylesheet that it is evaluated to with strict units is the one
that it is evaluated to without them. -/
theorem evaluate_lenient {source : String} (hholes : ¬ ['@', '\x7b'] <:+: source.toList)
    (hunit : ∀ r, ofText source = .ok r → r.toNode.Throughout fun n => n.changesUnit = false)
    (o : Options) {sheet : Ruleset}
    (h : (do (← ofText source).evaluate (.ofOptions { o with strictUnits := true })) = .ok sheet) :
    (do (← ofText source).evaluate (.ofOptions { o with strictUnits := false })) = .ok sheet := by
  obtain ⟨r, hread, heval⟩ := exists_of_bind_eq_ok h
  obtain ⟨evaluated, hstrict, hsheet⟩ := exists_of_bind_eq_ok heval
  have hquiet : r.toNode.Throughout fun n => n.writes = false := fun n hn =>
    (asksByName_ofText hholes hread n hn).writes (hunit r hread n hn)
  obtain ⟨rules, rfl, hrules⟩ := meets_ofText Reading.readsValues_isValue (fun _ _ => trivial) hread
  have hmeets : ∀ n ∈ rules, n.Meets quiet := fun n hn => (hrules n hn).quiet (hquiet.part hn)
  have hlenient : (ofRules rules).eval
      ((ofOptions { o with strictUnits := true }).styled { o.style with strict := false }) =
        .ok evaluated :=
    eval_styled .allows hmeets (.ofOptions _) (fun _ => rfl) _ hstrict
  rw [hread]
  show (do
    let evaluated ← (ofRules rules).eval
      ((ofOptions { o with strictUnits := true }).styled { o.style with strict := false })
    return evaluated.extend.flatten) = _
  rw [hlenient]
  exact hsheet

/-- Lengths that are added in a definition and multiplied in a mixin: with strict units and without,
the same stylesheet results. -/
theorem evaluate_lenient_mixin : ∃ sheet,
    (do
      (← ofText "@x:1px+2px;.m(@n)\x7bw:@n*2\x7d.c\x7b.m(@x)\x7d").evaluate
        (.ofOptions { strictUnits := true })) =
        .ok sheet ∧
    (do
      (← ofText "@x:1px+2px;.m(@n)\x7bw:@n*2\x7d.c\x7b.m(@x)\x7d").evaluate
        (.ofOptions { strictUnits := false })) =
        .ok sheet := by
  have hholes : ¬ ['@', '\x7b'] <:+: "@x:1px+2px;.m(@n)\x7bw:@n*2\x7d.c\x7b.m(@x)\x7d".toList := by
    decide +kernel
  have hcheck : (match ofText "@x:1px+2px;.m(@n)\x7bw:@n*2\x7d.c\x7b.m(@x)\x7d" with
    | .ok r => decide (r.toNode.Throughout fun n => n.changesUnit = false) &&
        (r.evaluate (.ofOptions { strictUnits := true })).toBool
    | .error _ => false) = true := by decide +kernel
  cases hread : ofText "@x:1px+2px;.m(@n)\x7bw:@n*2\x7d.c\x7b.m(@x)\x7d" with
  | error e =>
    rw [hread] at hcheck
    cases hcheck
  | ok r =>
    rw [hread] at hcheck
    obtain ⟨hunit, hstrict⟩ := Bool.and_eq_true_iff.mp hcheck
    cases hsheet : r.evaluate (.ofOptions { strictUnits := true }) with
    | error e =>
      rw [hsheet] at hstrict
      cases hstrict
    | ok sheet =>
      refine ⟨sheet, hsheet, hread ▸ evaluate_lenient hholes (fun r' hr' => ?_) {} (hread ▸ hsheet)⟩
      obtain rfl : r = r' := Except.ok.inj (hread.symm.trans hr')
      exact of_decide_eq_true hunit

end Ruleset

end LessCss
