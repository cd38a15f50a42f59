import LessCss.Dimension.Units
import LessCss.Error

/-!
# Numbers with units

Sums adopt the unit of the left side, converting the right side into it, or that of the right side
if the left has none; products and quotients combine units.  With strict units, a sum of different
units is an error.
-/

namespace LessCss

/-- The four operators. -/
inductive Operator
  | add
  | sub
  | mul
  | div
  deriving DecidableEq, Repr

namespace Operator

/-- The operator of a symbol; a slash may have a dot before it. -/
def ofSymbol? : String → Option Operator
  | "+" => some add
  | "-" => some sub
  | "*" => some mul
  | "/" | "./" => some div
  | _ => none

/-- The symbol of an operator. -/
def symbol : Operator → String
  | add => "+"
  | sub => "-"
  | mul => "*"
  | div => "/"

/-- The operator on plain numbers. -/
def apply : Operator → Float → Float → Float
  | add, a, b => a + b
  | sub, a, b => a - b
  | mul, a, b => a * b
  | div, a, b => a / b

end Operator

/-- How values are written. -/
structure Style where
  /-- The number of places to which numbers are rounded, if they are. -/
  places : Option Nat
  /-- Whether a unit has to be a single one. -/
  strict : Bool
  /-- Whether spaces and zeros that say nothing are left out. -/
  compress : Bool
  deriving DecidableEq, Repr

/-- A number with a unit. -/
structure Dimension where
  value : Float
  unit : Units
  deriving Repr, Inhabited

namespace Dimension

/-- A number without unit. -/
def ofFloat (value : Float) : Dimension := ⟨value, .none⟩

/-- A number with an atomic unit, or without unit if the name is empty. -/
def ofAtom (value : Float) (atom : String) : Dimension := ⟨value, .ofAtom atom⟩

/-- Whether value, products and fallback agree. -/
def beq (a b : Dimension) : Bool := a.value == b.value && a.unit == b.unit

/-- Whether a character belongs to the number, as the first one or a later one. -/
def isNumberChar (isFirst : Bool) (c : Char) : Bool :=
  c.isDigit || c == '.' || (isFirst && (c == '-' || c == '+'))

/-- Splits a text behind the number at its start. -/
def splitNumber : List Char → List Char × List Char
  | [] => ([], [])
  | c :: cs =>
    if isNumberChar true c then (c :: cs.takeWhile (isNumberChar false),
      cs.dropWhile (isNumberChar false))
    else ([], c :: cs)

/-- Reads a number and the unit behind it. -/
def read (text : String) : Except Error Dimension :=
  let (number, unit) := splitNumber text.toList
  match Decimal.read? number with
  | some value => .ok (ofAtom value (String.ofList unit))
  | none => .error (.notANumber text)

/-- Converts the units of a number by families. -/
def convert (c : Conversion) (d : Dimension) : Dimension :=
  let (unit, scalings) := d.unit.convert Family.factor? c
  ⟨scalings.foldl (fun x s => s.apply x) d.value, unit.cancel⟩

/-- Converts to one unit, if that belongs to a family. -/
def convertTo (target : String) (d : Dimension) : Dimension :=
  match Family.of? target with
  | some family => d.convert (.single family target)
  | none => d

/-- Converts to the canonical unit of every family. -/
def unify (d : Dimension) : Dimension := d.convert fun f => some f.canonical

/-- The sum or difference of two numbers with units. -/
def combine (op : Operator) (strict : Bool) (a b : Dimension) : Except Error Dimension :=
  let plain := op.apply a.value b.value
  if a.unit.isEmpty then
    let unit := b.unit.normalize
    .ok ⟨plain, { unit with fallback := a.unit.fallback.or unit.fallback }⟩
  else
    let unit := a.unit.normalize
    -- a plain number takes on any unit that has nothing below
    if b.unit.numerator.isEmpty && unit.denominator.isEmpty then .ok ⟨plain, unit⟩
    else if strict && b.unit.text != unit.text then
      .error (.incompatibleUnits unit.text b.unit.text none)
    else .ok ⟨op.apply a.value (b.convert a.unit.used?).value, unit⟩

/-- The result of an operator on two numbers with units. -/
def operate (op : Operator) (strict : Bool) (a b : Dimension) : Except Error Dimension :=
  match op with
  | .add | .sub => combine op strict a b
  | .mul => .ok ⟨a.value * b.value, a.unit.mul b.unit⟩
  | .div => .ok ⟨a.value / b.value, a.unit.div b.unit⟩

/-- The order of two plain numbers, which is undefined where one of them is. -/
def compareFloat (a b : Float) : Option Ordering :=
  if a < b then some .lt
  else if a == b then some .eq
  else if b < a then some .gt
  else none

/-- The order of two numbers with units.  A number without unit compares with any other; otherwise
the units have to agree once they are converted to the canonical ones. -/
def compare? (a b : Dimension) : Option Ordering :=
  if a.unit.isEmpty || b.unit.isEmpty then compareFloat a.value b.value
  else
    let a := a.unify
    let b := b.unify
    if a.unit.text == b.unit.text then compareFloat a.value b.value else none

/-! ## Printing -/

/-- Rounds to a number of places, if one is given.  The small number added first makes up for the
error of binary numbers just below a half. -/
def roundTo (places : Option Nat) (x : Float) : Float :=
  match places with
  | none => x
  | some n =>
    let shifted := x + 2e-16
    let rounded := (Decimal.fixed n shifted).toFloat
    -- a negative number may round to minus zero
    if isSigned shifted then -rounded else rounded

/-- A finite number in digits: the shortest decimal that reads back, but for numbers close to zero
twenty places without the zeros at the end. -/
def numberText (x : Float) : String :=
  if x == 0 then "0"
  else if x.abs < 1e-6 then
    let sign := if isSigned x then "-" else ""
    sign ++ (Decimal.trimWithin 20 (Decimal.fixed 20 x)).positional
  else Decimal.text x

/-- Leaves out the zero before the point. -/
def dropLeadingZero (text : String) : String :=
  match text.toList with
  | '0' :: '.' :: rest => String.ofList ('.' :: rest)
  | '-' :: '0' :: '.' :: rest => String.ofList ('-' :: '.' :: rest)
  | _ => text

/-- A number with its unit as it stands in a stylesheet. -/
def render (style : Style) (d : Dimension) : Except Error String :=
  if style.strict && !d.unit.isSingular then .error (.severalUnits d.unit.text)
  else if !d.value.isFinite then .error (.notFinite d.value)
  else
    let value := roundTo style.places d.value
    let text := numberText value
    let text := if style.compress && value != 0 && value.abs < 1 then dropLeadingZero text else text
    .ok (text ++ d.unit.printed style.strict)

end Dimension

end LessCss
