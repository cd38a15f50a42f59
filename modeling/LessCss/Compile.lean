import LessCss.Evaluation
import LessCss.Extend
import LessCss.Flatten
import LessCss.Reading.Statement

/-!
# Compiling stylesheets

From text to text: a stylesheet is read, evaluated, its extensions are resolved, nested rules are
taken apart, and the result is written.
-/

namespace LessCss

/-- Evaluates a stylesheet into one without variables, mixins, extensions and nested rules. -/
def Ruleset.evaluate (c : Context) (r : Ruleset) : Except Error Ruleset := do
  return (← r.eval c).extend.flatten

/-- Compiles the text of a stylesheet. -/
def compile (o : Options) (source : String) : Except Error String := do
  let root ← Ruleset.ofText source
  let result ← root.evaluate (.ofOptions o)
  Css.stylesheet o.style o.minify result.rules

end LessCss
