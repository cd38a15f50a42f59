import LessCss.Compile
import LessCss.Proofs.Evaluation.Plain
import LessCss.Proofs.Occurrence

/-!
# What a call marks as important

A call with `!important` comes to what the same call comes to without it, with the declarations
marked in it (`Evaluation.eval_importantCall`).  Marking goes on into rule sets and media rules, but
it stops at all other at-rules. So the declarations that such a call leaves unmarked are just those
that are unmarked without it and lie in an at-rule (`Node.liesIn_makeAllImportant_iff`), and where
there are none of them everything is marked (`Context.eval_call_marks`).  In a block of `@supports`
there may well be some (`Context.eval_call_supports`).
-/

namespace LessCss

open Evaluation

namespace Node

/-- Whether a node is a declaration that is not important. -/
def isUnmarked : Node → Bool
  | declaration _ _ important _ _ => !important
  | _ => false

/-- A rule lies in an at-rule, other than a media rule, that lies in another rule. -/
def LiesInAtRule (m n : Node) : Prop := ∃ a : Node, a.sort = .atRule ∧ a.LiesIn n ∧ m.LiesIn a

variable {m n n' : Node}

theorem liesInAtRule_iff (hn : n.sort ≠ .atRule) :
    m.LiesInAtRule n ↔ ∃ k ∈ n.block, m.LiesInAtRule k := by
  constructor
  · rintro ⟨a, hsort, ha, hm⟩
    rcases liesIn_iff.mp ha with rfl | ⟨k, hk, ha⟩
    · exact absurd hsort hn
    · exact ⟨k, hk, a, hsort, ha, hm⟩
  · rintro ⟨k, hk, a, hsort, ha, hm⟩
    exact ⟨a, hsort, .block hk ha, hm⟩

theorem liesIn_iff_of_isUnmarked (hm : m.isUnmarked) (hn : n.isUnmarked = false) :
    m.LiesIn n ↔ ∃ k ∈ n.block, m.LiesIn k := by
  rw [liesIn_iff, or_iff_right]
  rintro rfl
  exact Bool.noConfusion (hm.symm.trans hn)

/-- Neither rule is unmarked or an at-rule, so that only their blocks count. -/
theorem liesIn_iff_of_block (hm : m.isUnmarked) (hn : n.sort ≠ .atRule)
    (hn' : n'.isUnmarked = false)
    (h : (∃ k ∈ n'.block, m.LiesIn k) ↔ ∃ k ∈ n.block, m.LiesInAtRule k) :
    m.LiesIn n' ↔ m.LiesInAtRule n := by
  rw [liesIn_iff_of_isUnmarked hm hn', liesInAtRule_iff hn, h]

mutual
/-- **What marking leaves unmarked in a rule** is what is unmarked before and lies in an at-rule. -/
theorem liesIn_makeImportant_iff (hm : m.isUnmarked) : ∀ n : Node, n.Plain →
    (m.LiesIn (makeImportant n) ↔ m.LiesInAtRule n)
  | ruleset _ rules _, h =>
    liesIn_iff_of_block hm nofun rfl (liesIn_makeAllImportant_iff hm rules h)
  | media _ rules, h => liesIn_iff_of_block hm nofun rfl (liesIn_makeAllImportant_iff hm rules h.2)
  | atRule name header rules, _ => by
    constructor
    · intro h
      exact ⟨atRule name header rules, rfl, .self, h⟩
    · rintro ⟨a, -, ha, hm⟩
      exact hm.trans ha
  | declaration .., _ | dimension _, _ | expression .., _ | list _, _ | paren _, _ | comment .., _
  | keyword _, _ | quoted .., _ | url _, _ | operation .., _ | negative _, _ | call .., _
  | selector _, _ | importRule .., _ =>
    liesIn_iff_of_block hm nofun rfl (by simp [makeImportant, block])
/-- Marking rules leaves the declarations in at-rules unmarked, and no others. -/
theorem liesIn_makeAllImportant_iff (hm : m.isUnmarked) : ∀ rules : List Node, PlainAll rules →
    ((∃ n ∈ makeAllImportant rules, m.LiesIn n) ↔ ∃ n ∈ rules, m.LiesInAtRule n)
  | [], _ => by simp [makeAllImportant]
  | node :: nodes, h => by
    simp only [makeAllImportant, List.exists_mem_cons_iff, liesIn_makeImportant_iff hm node h.1,
      liesIn_makeAllImportant_iff hm nodes h.2]
end

end Node

namespace Evaluation

variable {d : Deeper} {c : Context}

/-- The rules of a call with `!important` are those of the call without it, marked. -/
theorem expand_important (m : Mixin) (name : String) (args values : List Node) (offset : Nat) :
    expand d c m name args values true offset =
      makeAllImportant <$> expand d c m name args values false offset := by
  simp [expand, map_bind]

/-- A call of a mixin in reach comes to the rules of it. -/
theorem eval_mixinCall {name : String} {m : Mixin} (found : c.mixin? name = some m)
    (args : List Node) (important : Bool) (offset : Nat) :
    eval d c (.mixinCall name args important offset) =
      (evalEach d c args >>= fun values =>
        .many <$> expand d c m name args values important offset) := by
  unfold eval
  rw [found]
  rfl

/-- A call with `!important` gives the rules of the call without, marked as important. -/
theorem eval_importantCall {name : String} {args : List Node} {offset : Nat} {rules : List Node}
    (h : eval d c (.mixinCall name args true offset) = .ok (.many rules)) :
    ∃ plain, eval d c (.mixinCall name args false offset) = .ok (.many plain) ∧
    rules = makeAllImportant plain := by
  cases found : c.mixin? name with
  | none =>
    unfold eval at h
    rw [found] at h
    cases h
  | some m =>
    rw [eval_mixinCall found] at h ⊢
    obtain ⟨values, hvalues, h⟩ := exists_of_bind_eq_ok h
    rw [expand_important] at h
    cases hplain : expand d c m name args values false offset with
    | error e =>
      rw [hplain] at h
      cases h
    | ok plain =>
      rw [hplain] at h
      cases h
      refine ⟨plain, ?_, rfl⟩
      rw [hvalues]
      exact congrArg (Functor.map Yield.many) hplain

end Evaluation

namespace Context

/-- **A call with `!important` marks everything but what lies in at-rules.**  The declarations that
are not important in what it comes to, at any depth, are those that are not important in what the
same call comes to without it and that lie in an at-rule there.  So all are important just if all in
at-rules are so anyway. -/
theorem eval_call_marks {c : Context} {name : String} {args : List Node} {offset : Nat}
    {rules : List Node} (h : c.eval (.mixinCall name args true offset) = .ok (.many rules)) :
    ∃ plain, c.eval (.mixinCall name args false offset) = .ok (.many plain) ∧
      (∀ m : Node, m.isUnmarked → ((∃ n ∈ rules, m.LiesIn n) ↔ ∃ n ∈ plain, m.LiesInAtRule n)) ∧
      ((∀ n ∈ rules, ∀ m : Node, m.LiesIn n → m.isUnmarked = false) ↔
        ∀ n ∈ plain, ∀ m : Node, m.LiesInAtRule n → m.isUnmarked = false) := by
  obtain ⟨plain, hplain, rfl⟩ := eval_importantCall h
  have hnodes : Node.PlainAll plain := eval_plain (Deeper.within_plain _) c _ _ hplain
  have hmarks (m : Node) (hm : m.isUnmarked) := Node.liesIn_makeAllImportant_iff hm plain hnodes
  refine ⟨plain, hplain, hmarks, ?_⟩
  constructor
  · intro hall n hn m hmn
    by_contra hm
    obtain ⟨k, hk, hmk⟩ := (hmarks m (by simpa using hm)).mpr ⟨n, hn, hmn⟩
    exact hm (hall k hk m hmk)
  · intro hall n hn m hmn
    by_contra hm
    obtain ⟨k, hk, hmk⟩ := (hmarks m (by simpa using hm)).mp ⟨n, hn, hmn⟩
    exact hm (hall k hk m hmk)

/-- Without at-rules a call marks everything, be it in a rule set, a media rule, or from a mixin
called in turn. -/
theorem eval_call_marks_nested : ∃ (r : Ruleset) (rules plain : List Node),
    Ruleset.ofText ".m()\x7ba:b;.x\x7bc:d\x7d@media e\x7bf:g\x7d.n\x7d.n()\x7b.y\x7bh:i\x7d\x7d" =
      .ok r ∧
    ((ofOptions {}).inFrame (.ofRules r.rules)).eval (.mixinCall ".m" [] true 0) =
      .ok (.many rules) ∧
    ((ofOptions {}).inFrame (.ofRules r.rules)).eval (.mixinCall ".m" [] false 0) =
      .ok (.many plain) ∧
    plain.length = 4 ∧ (∀ n ∈ plain, n.all (fun m => !m.isUnmarked) = false) ∧
    ∀ n ∈ rules, ∀ m : Node, m.LiesIn n → m.isUnmarked = false := by
  have hcheck : (match Ruleset.ofText
      ".m()\x7ba:b;.x\x7bc:d\x7d@media e\x7bf:g\x7d.n\x7d.n()\x7b.y\x7bh:i\x7d\x7d" with
    | .ok r => match ((ofOptions {}).inFrame (.ofRules r.rules)).eval (.mixinCall ".m" [] true 0),
        ((ofOptions {}).inFrame (.ofRules r.rules)).eval (.mixinCall ".m" [] false 0) with
      | .ok (.many _), .ok (.many plain) => plain.length == 4 &&
        (plain.all (fun n => !n.all (fun m => !m.isUnmarked)) &&
          plain.all (·.all (·.sort != .atRule)))
      | _, _ => false
    | .error _ => false) = true := by decide +kernel
  split at hcheck
  · next r hread =>
    split at hcheck
    · next rules plain hmarked hplain =>
      simp only [Bool.and_eq_true, beq_iff_eq, List.all_eq_true, Bool.not_eq_true'] at hcheck
      obtain ⟨hlength, hunmarked, hsorts⟩ := hcheck
      obtain ⟨plain', hplain', -, hall⟩ := eval_call_marks hmarked
      obtain rfl : plain = plain' := by simpa using hplain.symm.trans hplain'
      refine ⟨r, rules, plain, hread, hmarked, hplain, hlength, hunmarked, hall.mpr ?_⟩
      rintro n hn m ⟨a, hsort, ha, -⟩
      have := (Node.all_iff n).mp (hsorts n hn) a ha.occursIn
      exact absurd hsort (by simpa using this)
    · cases hcheck
  · cases hcheck

/-- **The block of an at-rule is left as it is.**  `@supports` is no media rule, so that a call with
`!important` does not mark the declaration that lies in it, and the style sheet is written without
the mark. -/
theorem eval_call_supports :
    (∃ (r : Ruleset) (rules : List Node) (n m : Node),
      Ruleset.ofText ".m()\x7b@supports(x:y)\x7bb:c\x7d\x7d" = .ok r ∧
      ((ofOptions {}).inFrame (.ofRules r.rules)).eval (.mixinCall ".m" [] true 0) =
        .ok (.many rules) ∧
      n ∈ rules ∧ m.LiesIn n ∧ m.isUnmarked) ∧
    (compile {}
      ".m() \x7b @supports (x: y) \x7b b: c; \x7d \x7d .a \x7b .m() !important; \x7d").toOption =
      some "@supports (x: y) \x7b\n  .a \x7b\n    b: c;\n  \x7d\n\x7d" := by
  refine ⟨?_, by decide +kernel⟩
  have hcheck : (match Ruleset.ofText ".m()\x7b@supports(x:y)\x7bb:c\x7d\x7d" with
    | .ok r =>
      match ((ofOptions {}).inFrame (.ofRules r.rules)).eval (.mixinCall ".m" [] true 0) with
      | .ok (.many rules) => rules.any fun n => n.block.any Node.isUnmarked
      | _ => false
    | .error _ => false) = true := by decide +kernel
  split at hcheck
  · next r hread =>
    split at hcheck
    · next rules hcall =>
      obtain ⟨n, hn, hblock⟩ := List.any_eq_true.mp hcheck
      obtain ⟨m, hm, hunmarked⟩ := List.any_eq_true.mp hblock
      exact ⟨r, rules, n, m, hread, hcall, hn, .block hm .self, hunmarked⟩
    · cases hcheck
  · cases hcheck

end Context

end LessCss
