import LessCss.Error
import LessCss.Dimension
import LessCss.Text.Blank

/-!
# Options

Which operators are carried out, how strict units are, and how the result is written.
-/

namespace LessCss

/-- Which operators are carried out. -/
inductive MathMode
  /-- All of them. -/
  | always
  /-- Division in parentheses only, and all others. -/
  | parensDivision
  /-- Only those in parentheses. -/
  | parens
  /-- Only those in parentheses, where parentheses that are an operand do not count. -/
  | strictLegacy
  deriving DecidableEq, Repr, Inhabited

namespace MathMode

/-- The name of a mode in listings. -/
def name : MathMode → String
  | always => "Always"
  | parensDivision => "ParensDivision"
  | parens => "Parens"
  | strictLegacy => "StrictLegacy"

/-- Reads the name or the number of a mode, in letters of either case and with blanks around it. -/
def read (text : String) : Except Error MathMode :=
  match (Text.trim text).map Char.toLower with
  | "always" | "0" => .ok always
  | "parens-division" | "1" => .ok parensDivision
  | "parens" | "strict" | "2" => .ok parens
  | "strict-legacy" | "3" => .ok strictLegacy
  | other => .error (.unknownMathMode other)

end MathMode

/-- The options of a compilation. -/
structure Options where
  /-- Whether everything that is not needed is left out of the result. -/
  minify : Bool := false
  /-- Whether sums of different units and products of units are errors. -/
  strictUnits : Bool := false
  math : MathMode := .parensDivision
  /-- The number of places to which numbers are rounded, if they are. -/
  places : Option Nat := some 8
  deriving DecidableEq, Repr

/-- How values are written under given options. -/
def Options.style (o : Options) : Style := ⟨o.places, o.strictUnits, o.minify⟩

end LessCss
