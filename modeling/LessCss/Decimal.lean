/-!
# Decimals and binary numbers

A decimal is a number of units of some power of ten.  This module holds decimals, exact fractions,
and the nearest binary number (`Fraction.nearest`): the number with 53 binary digits that is closest
to a fraction, and of two equally close ones the even one.  All arithmetic is exact, on natural
numbers.
-/

namespace LessCss

/-- The fraction `num / den`. -/
structure Fraction where
  num : Nat
  den : Nat
  deriving DecidableEq, Repr

namespace Fraction

/-- The fraction `n * base ^ e`. -/
def scaled (n base : Nat) (e : Int) : Fraction :=
  if 0 ≤ e then ⟨n * Nat.pow base e.toNat, 1⟩ else ⟨n, Nat.pow base (-e).toNat⟩

/-- The fraction divided by `base ^ e`. -/
def unscale (r : Fraction) (base : Nat) (e : Int) : Fraction :=
  if 0 ≤ e then ⟨r.num, r.den * Nat.pow base e.toNat⟩ else ⟨r.num * Nat.pow base (-e).toNat, r.den⟩

/-- The whole number below a fraction. -/
def floor (r : Fraction) : Nat := r.num / r.den

/-- The whole number nearest to a fraction; a half goes to the even neighbour. -/
def round (r : Fraction) : Nat :=
  let below := r.num / r.den
  let twice := 2 * (r.num % r.den)
  if twice < r.den || (twice == r.den && below % 2 == 0) then below else below + 1

/-- The place of the leading binary digit: `2 ^ e ≤ r < 2 ^ (e + 1)` for a fraction above zero. -/
def binaryPlace (r : Fraction) : Int :=
  let e : Int := (r.num.log2 : Int) - (r.den.log2 : Int)
  if (r.unscale 2 e).floor = 0 then e - 1 else e

/-- The weight of the exponent in the encoding of a binary number: 52 digits stand below it. -/
def exponentWeight : Nat := Nat.pow 2 52

/-- The nearest number with 53 binary digits, the last of them no lower than `2 ^ (-1074)`.  The
exponent and the digits behind the leading one stand side by side in the encoding, so that a carry
out of the digits raises the exponent by itself. -/
def nearest (r : Fraction) : Float :=
  if r.num = 0 then 0
  else
    let e := max (r.binaryPlace - 52) (-1074)
    -- for the smallest numbers the leading digit is missing and the exponent counts from zero
    let code := (e + 1074).toNat * exponentWeight + (r.unscale 2 e).round
    let infinite := 2047 * exponentWeight
    Float.ofBits (min code infinite).toUInt64

/-- The magnitude of a finite number as a fraction. -/
def ofFloat (x : Float) : Fraction :=
  let code := x.toBits.toNat
  let exponent : Nat := code / exponentWeight % 2048
  let digits : Nat := code % exponentWeight
  if exponent = 0 then scaled digits 2 (-1074)
  else scaled (digits + exponentWeight) 2 ((exponent : Int) - 1075)

end Fraction

/-- The number `units * 10 ^ place`. -/
structure Decimal where
  units : Nat
  place : Int
  deriving DecidableEq, Repr

namespace Decimal

/-- The value of a decimal. -/
def toFraction (d : Decimal) : Fraction := .scaled d.units 10 d.place

/-- The nearest binary number. -/
def toFloat (d : Decimal) : Float := d.toFraction.nearest

/-- The digits of a decimal, with a point and zeros where they are needed, and never an exponent. -/
def positional (d : Decimal) : String :=
  let digits := Nat.toDigits 10 d.units
  if 0 ≤ d.place then String.ofList (digits ++ List.replicate d.place.toNat '0')
  else
    let places := (-d.place).toNat
    let padded := List.replicate (places + 1 - digits.length) '0' ++ digits
    String.ofList
      (padded.take (padded.length - places) ++ '.' :: padded.drop (padded.length - places))

/-- The decimal with the zeros at its end taken off, at most `bound` of them. -/
def trimWithin : Nat → Decimal → Decimal
  | 0, d => d
  | bound + 1, d =>
    if d.units % 10 = 0 then trimWithin bound ⟨d.units / 10, d.place + 1⟩ else d

/-- The decimal with `places` places nearest to a finite number, a half going to the even
neighbour. -/
def fixed (places : Nat) (x : Float) : Decimal :=
  ⟨((Fraction.ofFloat x).unscale 10 (-places)).round, -places⟩

end Decimal

/-- Whether a number carries a minus sign; minus zero does. -/
def isSigned (x : Float) : Bool := Nat.pow 2 63 ≤ x.toBits.toNat

end LessCss
