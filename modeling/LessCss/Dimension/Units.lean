/-!
# Units

A unit is a product of atomic units divided by another such product, both written as sorted lists.
Beside them it remembers a *fallback*, an atomic unit to print where the product is not a single
one.

Some atomic units form families, in which they convert into each other by fixed factors.
-/

namespace LessCss

/-! ## Families -/

/-- A family of units that convert into each other. -/
inductive Family
  | length
  | duration
  | angle
  deriving DecidableEq, Repr

namespace Family

/-- Every family, in the order in which conversions are carried out. -/
def all : List Family := [length, duration, angle]

/-- The name of a family in listings. -/
def name : Family → String
  | length => "Length"
  | duration => "Duration"
  | angle => "Angle"

/-- How much an atomic unit is worth, if it belongs to the family: in meters, seconds or turns. -/
def factor? : Family → String → Option Float
  | length, "m" => some 1
  | length, "cm" => some 0.01
  | length, "mm" => some 0.001
  | length, "in" => some 0.0254
  | length, "px" => some (0.0254 / 96)
  | length, "pt" => some (0.0254 / 72)
  | length, "pc" => some (0.0254 / 72 * 12)
  | duration, "s" => some 1
  | duration, "ms" => some 0.001
  | angle, "rad" => some (1 / (2 * 3.141592653589793))
  | angle, "deg" => some (1 / 360)
  | angle, "grad" => some (1 / 400)
  | angle, "turn" => some 1
  | _, _ => none

/-- The family of an atomic unit. -/
def of? (atom : String) : Option Family := all.find? fun f => (f.factor? atom).isSome

/-- The unit of a family into which all others are converted for comparison. -/
def canonical : Family → String
  | length => "px"
  | duration => "s"
  | angle => "rad"

end Family

/-! ## Units -/

/-- A product of atomic units over another one. -/
structure Units where
  numerator : List String
  denominator : List String
  /-- The atomic unit to print where there is not just one. -/
  fallback : Option String
  deriving DecidableEq, Repr, Inhabited

namespace Units

/-- Atomic units in order. -/
def sorted (atoms : List String) : List String := atoms.mergeSort fun a b => decide (a ≤ b)

/-- No unit. -/
def none : Units := ⟨[], [], .none⟩

/-- A unit with its products put in order.  Without a fallback, the first unit of the numerator is
it. -/
def ofProducts (numerator denominator : List String) (fallback : Option String) : Units :=
  let numerator := sorted numerator
  ⟨numerator, sorted denominator, fallback.or numerator.head?⟩

/-- A single atomic unit, or no unit if the name is empty. -/
def ofAtom (atom : String) : Units := if atom.isEmpty then none else ofProducts [atom] [] .none

/-- The same unit put in order, with a fallback if there can be one. -/
def normalize (u : Units) : Units := ofProducts u.numerator u.denominator u.fallback

/-- Whether there is no atomic unit. -/
def isEmpty (u : Units) : Bool := u.numerator.isEmpty && u.denominator.isEmpty

/-- Whether there is at most one atomic unit, and that in the numerator. -/
def isSingular (u : Units) : Bool := u.numerator.length ≤ 1 && u.denominator.isEmpty

/-- The atomic units of a unit, each once and in order. -/
def atoms (u : Units) : List String := sorted (u.numerator ++ u.denominator).eraseDups

/-- Strikes out what stands both above and below; the rest is in order. -/
def cancel (u : Units) : Units :=
  let surplus (above below : List String) : List String :=
    u.atoms.flatMap fun a => List.replicate (above.count a - below.count a) a
  { u with
    numerator := surplus u.numerator u.denominator
    denominator := surplus u.denominator u.numerator }

/-- The product of two units; the fallback is that of the first. -/
def mul (u v : Units) : Units :=
  let u := u.normalize
  cancel { u with
    numerator := u.numerator ++ v.numerator
    denominator := u.denominator ++ v.denominator }

/-- The quotient of two units; the fallback is that of the first. -/
def div (u v : Units) : Units :=
  let u := u.normalize
  cancel { u with
    numerator := u.numerator ++ v.denominator
    denominator := u.denominator ++ v.numerator }

/-- The first atomic unit of a family that occurs, above before below. -/
def used? (u : Units) (f : Family) : Option String :=
  (u.numerator ++ u.denominator).find? fun a => Family.of? a == some f

/-- A unit in words: products with stars, and a slash before each atomic unit below. -/
def text (u : Units) : String :=
  "*".intercalate u.numerator ++ String.join (u.denominator.map ("/" ++ ·))

/-- The unit that is printed behind a number.  Unless units are strict, the fallback or the first
unit below stands in for a product that is not a single unit. -/
def printed (u : Units) (strict : Bool) : String :=
  match u.numerator with
  | [atom] => atom
  | _ => if strict then "" else (u.fallback.or u.denominator.head?).getD ""

end Units

/-! ## Conversion -/

/-- For each family, the unit into which its units are to be converted. -/
abbrev Conversion := Family → Option String

/-- The conversion of one family. -/
def Conversion.single (family : Family) (target : String) : Conversion :=
  fun f => if f = family then some target else none

/-- A number is to be multiplied by `worth / target`, or divided by it where the unit stands
below. -/
structure Scaling (α : Type) where
  worth : α
  target : α
  below : Bool

namespace Scaling

/-- One number scaled. -/
def apply {α : Type} [Mul α] [Div α] (s : Scaling α) (x : α) : α :=
  if s.below then x / (s.worth / s.target) else x * (s.worth / s.target)

end Scaling

namespace Units

/-- Replaces the units of one family by `target`. -/
def retarget (u : Units) (f : Family) (target : String) : Units :=
  let replace (a : String) : String := if (f.factor? a).isSome then target else a
  { u with numerator := u.numerator.map replace, denominator := u.denominator.map replace }

section Scaled

variable {α : Type} (factor : Family → String → Option α)

/-- The scalings that replacing the units of one family by `target` asks for, those above first. -/
def scalings (u : Units) (f : Family) (targetWorth : α) : List (Scaling α) :=
  let scale (below : Bool) (a : String) : Option (Scaling α) :=
    (factor f a).map fun worth => ⟨worth, targetWorth, below⟩
  u.numerator.filterMap (scale false) ++ u.denominator.filterMap (scale true)

/-- Converts the units of one family, with the scalings this asks for.  A target that is no unit of
the family is left aside. -/
def convertFamily (c : Conversion) (u : Units) (f : Family) : Units × List (Scaling α) :=
  match c f with
  | .none => (u, [])
  | some target =>
    match factor f target with
    | .none => (u, [])
    | some worth => (u.retarget f target, u.scalings factor f worth)

/-- Converts the units of every family, one family after the other.  The factors of units may be
numbers of any kind. -/
def convert (c : Conversion) (u : Units) : Units × List (Scaling α) :=
  Family.all.foldl
    (fun (acc : Units × List (Scaling α)) f =>
      let next := convertFamily factor c acc.1 f
      (next.1, acc.2 ++ next.2))
    (u.normalize, [])

end Scaled

end Units

end LessCss
