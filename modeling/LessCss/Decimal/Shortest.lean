import LessCss.Decimal

/-!
# The shortest decimal that reads back

Of all decimals to which a binary number is the nearest, `Decimal.shortest` is one with the fewest
digits, and of those the one nearest to the number, where of two equally near ones the larger is
taken.  For each count of digits only the two neighbours of the number on the grid of that many
digits are tried: if any point of the grid reads back as the number, then one of its neighbours
does.
-/

namespace LessCss.Decimal

/-- The place of the first digit: `10 ^ (k - 1) ≤ r < 10 ^ k` for a fraction above zero. -/
def leadingPlace (r : Fraction) : Int :=
  if r.den ≤ r.num then ((Nat.toDigits 10 r.floor).length : Int)
  else
    let below := (r.den + r.num - 1) / r.num - 1
    1 - ((Nat.toDigits 10 below).length : Int)

/-- The nearest decimal of `count` digits, if it or the neighbour on the other side of `x` reads
back as `x`; `r` is the value of `x`. -/
def withDigits? (x : Float) (r : Fraction) (count : Nat) : Option Decimal :=
  let place := leadingPlace r - count
  let scaled := r.unscale 10 place
  let low : Decimal := ⟨scaled.floor, place⟩
  let high : Decimal := ⟨scaled.floor + 1, place⟩
  let readsBack (d : Decimal) : Bool := d.toFloat.toBits == x.toBits
  match readsBack low, readsBack high with
  -- both sides read back: the nearer one, and above it at an equal distance
  | true, true => some (if 2 * scaled.num < (2 * scaled.floor + 1) * scaled.den then low else high)
  | true, false => some low
  | false, true => some high
  | false, false => none

/-- The shortest decimal that reads back as a finite number above zero.  Seventeen digits are always
enough. -/
def shortest (x : Float) : Decimal :=
  let r := Fraction.ofFloat x
  let found := (List.range 17).findSome? fun n => withDigits? x r (n + 1)
  trimWithin 18 (found.getD ⟨0, 0⟩)

/-- A number as the shortest decimal that reads back, without exponent; zero keeps its sign. -/
def text (x : Float) : String :=
  if x.isNaN then "NaN"
  else
    let sign := if isSigned x then "-" else ""
    if x.isInf then sign ++ "inf"
    else if x == 0 then sign ++ "0"
    else sign ++ (shortest x.abs).positional

/-! ## Reading -/

/-- Reads digits, perhaps with a point among, before or behind them. -/
def readDigits? (cs : List Char) : Option Decimal :=
  let whole := cs.takeWhile Char.isDigit
  let ofDigits (ds : List Char) : Nat := ds.foldl (fun n c => 10 * n + (c.toNat - '0'.toNat)) 0
  match cs.dropWhile Char.isDigit with
  | [] => if whole.isEmpty then none else some ⟨ofDigits whole, 0⟩
  | c :: part =>
    if c == '.' && part.all Char.isDigit && !(whole.isEmpty && part.isEmpty) then
      some ⟨ofDigits (whole ++ part), -part.length⟩
    else none

/-- Reads a number: an optional sign and digits, perhaps with a point. -/
def read? : List Char → Option Float
  | '-' :: cs => (readDigits? cs).map fun d => -d.toFloat
  | '+' :: cs => (readDigits? cs).map toFloat
  | cs => (readDigits? cs).map toFloat

end LessCss.Decimal
