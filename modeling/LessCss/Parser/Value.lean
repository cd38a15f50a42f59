import LessCss.Parser

/-!
# Parsing values

A value is a list of expressions between commas, an expression a row of sums, a sum joins products
by plus and minus, and a product joins operands by star and slash.  An operand may again hold a
value in parentheses.  Each level is written as a parser over the parser of operands, and operands
nest no deeper than there are tokens.
-/

namespace LessCss.Parser

/-- Whether the minus sign at this place starts an operand of its own, as in a row of signed
numbers: something stands before it and nothing between it and the operand. -/
def isSign (c : Cursor) : Bool :=
  match c.rest with
  | minus :: operand :: _ =>
    c.hasGap && operand.start == minus.stop && (first .operand).contains operand.kind
  | _ => false

/-- Operands joined by star and slash. -/
def productOver (operand : Parser Tree) : Parser Tree := node .product do
  let head ← operand
  let ops := KindSet.ofList [.star, .slash]
  let more ← repeatWhile (·.isAtAny ops) do
    return [← take .product ops, ← operand]
  return head :: more

/-- Products joined by plus and minus. -/
def sumOver (operand : Parser Tree) : Parser Tree := node .sum do
  let head ← productOver operand
  let more ← repeatWhile (fun c => c.isAt .plus || (c.isAt .minus && !isSign c)) do
    return [← take .sum (.ofList [.plus, .minus]), ← productOver operand]
  return head :: more

/-- A row of sums. -/
def expressionOver (operand : Parser Tree) : Parser Tree := node .expression do
  let head ← sumOver operand
  let more ← repeatWhile (startsHere · .operand) do
    return [← sumOver operand]
  return head :: more

/-- Expressions between commas. -/
def valueOver (operand : Parser Tree) : Parser Tree := node .value do
  let head ← expressionOver operand
  let more ← repeatWhile (·.isAt .comma) do
    return [← expect .value .comma, ← expressionOver operand]
  return head :: more

/-- The name and colon of a media feature, where both are there. -/
def featureName : Parser (List Tree) := do
  let c ← here
  if c.isAt .ident && c.secondKind? == some .colon then
    return [← expect .parens .ident, ← expect .parens .colon]
  else return []

/-- A value in parentheses, or a media feature. -/
def parensOver (operand : Parser Tree) : Parser Tree := node .parens do
  let left ← expect .parens .leftParen
  let feature ← featureName
  let value ← valueOver operand
  let right ← expect .parens .rightParen
  return left :: feature ++ [value, right]

/-- The parts of an operand, the parser `inner` being used for the operands inside it. -/
def operandParts (inner : Parser Tree) : Parser (List Tree) := do
  match (← here).kind? with
  | some .minus =>
    let minus ← expect .operand .minus
    if (← here).isTight then return [minus, ← inner]
    else fail .operand (first .operand)
  | some .tilde =>
    let tilde ← expect .operand .tilde
    if (← here).isTight then return [tilde, ← expect .operand .string]
    else fail .operand (.ofList [.string])
  | some .function =>
    let head ← expect .operand .function
    if (← here).isAt .rightParen then
      return [head, ← expect .operand .rightParen]
    else
      let value ← valueOver inner
      return [head, value, ← expect .operand .rightParen]
  | some .leftParen => return [← parensOver inner]
  | _ => return [← take .operand (first .operand)]

/-- An operand with operands nested at most `bound` deep. -/
def operandWithin : Nat → Parser Tree
  | 0 => fail .operand (first .operand)
  | bound + 1 => node .operand (operandParts (operandWithin bound))

/-- Each nested operand stands behind a token of the operand around it, so that operands nest no
deeper than there are tokens left. -/
def operand : Parser Tree := fun c => operandWithin c.rest.length c

/-- A row of sums. -/
def expression : Parser Tree := fun c => expressionOver (operandWithin c.rest.length) c

/-- Expressions between commas. -/
def value : Parser Tree := fun c => valueOver (operandWithin c.rest.length) c

/-- A value in parentheses, or a media feature. -/
def parens : Parser Tree := fun c => parensOver (operandWithin c.rest.length) c

/-! ## Arguments of mixins -/

/-- The name and colon of a named argument, where both are there. -/
def argumentName : Parser (List Tree) := do
  let c ← here
  if c.isAt .atName && c.secondKind? == some .colon then
    return [← expect .argument .atName, ← expect .argument .colon]
  else return []

/-- One argument: an expression, perhaps with a name. -/
def argument : Parser Tree := node .argument do
  let name ← argumentName
  return name ++ [← expression]

/-- Arguments in parentheses, between commas or semicolons. -/
def arguments : Parser Tree := node .arguments do
  let left ← expect .arguments .leftParen
  let separators := KindSet.ofList [.comma, .semicolon]
  if (← here).isAt .rightParen then
    return [left, ← expect .arguments .rightParen]
  else
    let head ← argument
    let more ← repeatWhile (·.isAtAny separators) do
      return [← take .arguments separators, ← argument]
    return left :: head :: more ++ [← expect .arguments .rightParen]

/-! ## Guards -/

/-- One condition of a guard: parentheses, perhaps behind a negation. -/
def condition : Parser (List Tree) := do
  let c ← here
  let negation ←
    if c.isAt .ident && c.next?.any (·.text == "not") then
      pure [← expect .guard .ident]
    else pure []
  let left ← expect .guard .leftParen
  return negation ++ left :: (← balanced .guard)

/-- The conditions under which a mixin applies; what is in the parentheses is kept as it is. -/
def guard : Parser Tree := node .guard do
  let head ← expect .guard .when
  let condition₁ ← condition
  let joiners := KindSet.ofList [.and, .or, .comma]
  let more ← repeatWhile (·.isAtAny joiners) do
    return (← take .guard joiners) :: (← condition)
  return head :: condition₁ ++ more

/-! ## Media queries -/

/-- One media query: words and features. -/
def mediaQuery : Parser Tree := node .mediaQuery do
  let words := KindSet.ofList [.ident, .and, .or]
  let parts ← repeatWhile (startsHere · .mediaQuery) do
    if (← here).isAt .leftParen then return [← parens]
    else return [← take .mediaQuery words]
  if parts.isEmpty then fail .mediaQuery (first .mediaQuery) else return parts

/-- Media queries between commas. -/
def mediaList : Parser Tree := node .mediaList do
  let head ← mediaQuery
  let more ← repeatWhile (·.isAt .comma) do
    return [← expect .mediaList .comma, ← mediaQuery]
  return head :: more

end LessCss.Parser
