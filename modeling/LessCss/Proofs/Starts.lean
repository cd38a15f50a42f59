import Mathlib.Logic.Function.Iterate
import LessCss.Grammar

/-!
# What phrases start with

The parser looks up in a list (`Phrase.starts`) with which kinds of token a phrase may start.  The
list is right: it is what the analysis of the grammar gives.  No phrase of the language starts with
itself, so that the facts about it are known after eight steps of the analysis, whatever was assumed
before them; and the analysis does not stop earlier than that unless a step changes nothing.
-/

namespace LessCss

namespace Grammar

@[simp] theorem get_step (g : Grammar) (known : Phrase.Table StartFacts) (p : Phrase) :
    (g.step known).get p = .ofAlternatives known.get (g.alternatives p) := by
  rw [step, Phrase.Table.get_tabulate]

/-- If some number of steps leads to the same facts from everywhere, the analysis finds these
facts. -/
theorem repeatStep_eq {g : Grammar} {n : Nat} {facts : Phrase.Table StartFacts}
    (hfacts : ∀ known, g.step^[n] known = facts) (bound done : Nat)
    (known : Phrase.Table StartFacts) (hbound : n ≤ bound + done) :
    g.repeatStep bound (g.step^[done] known) = facts := by
  induction bound generalizing done with
  | zero =>
    obtain ⟨m, rfl⟩ := Nat.exists_eq_add_of_le (show n ≤ done by omega)
    rw [repeatStep, Function.iterate_add_apply]
    exact hfacts _
  | succ bound ih =>
    rw [repeatStep]
    split
    · rename_i hsame
      have hfixed : g.step (g.step^[done] known) = g.step^[done] known :=
        congrArg Phrase.Table.mk hsame
      rw [← hfacts (g.step^[done] known), Function.iterate_fixed hfixed]
    · have hnext := ih (done + 1) (by omega)
      rwa [Function.iterate_succ_apply'] at hnext

end Grammar

namespace Prediction

/-- The facts about the language: only the row of statements may be empty. -/
def languageFacts : Phrase.Table StartFacts := .tabulate fun p => ⟨p.starts, p == .statements⟩

/-- After eight steps the facts about the language do not depend on what was assumed before. -/
theorem iterate_step (known : Phrase.Table StartFacts) :
    (Grammar.step fun p => some (Grammar.stylesheet p))^[8] known = languageFacts := by
  rw [Function.iterate_succ_apply', languageFacts, Grammar.step]
  congr 1
  funext p
  cases p <;>
    simp [Grammar.alternatives, Grammar.stylesheet, StartFacts.ofAlternatives, StartFacts.ofSymbols,
      Function.iterate_succ_apply', StartFacts.union, StartFacts.none] <;> decide +kernel

/-- **The list of starts is what the analysis of the grammar gives.** -/
theorem first_stylesheet (p : Phrase) : stylesheet.first p = p.starts := by
  have hfacts := Grammar.repeatStep_eq iterate_step (32 * 40) 0 (.tabulate fun _ => .none)
      (by omega)
  rw [Function.iterate_zero_apply] at hfacts
  rw [first, stylesheet, ofGrammar, Grammar.facts, hfacts, languageFacts, Phrase.Table.get_tabulate]

end Prediction

end LessCss
