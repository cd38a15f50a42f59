import LessCss.Parser

/-!
# Parsing selectors

Whether blanks stand between two simple selectors matters here and nowhere else in the grammar; it
is read off the places of neighbouring tokens (`Cursor.isTight`, `Cursor.hasGap`).
-/

namespace LessCss.Parser

/-- A name put together from plain parts and variables, with nothing between them. -/
def name : Parser Tree := node .name do
  let parts := KindSet.ofList [.ident, .atBraces]
  let head ← take .name parts
  let more ← repeatWhile (fun c => c.isTight && c.isAtAny parts) do
    return [← take .name parts]
  return head :: more

/-- A pseudo class or pseudo element; the arguments of one are kept as they are. -/
def pseudo : Parser Tree := node .pseudo do
  let colon ← expect .pseudo .colon
  let c ← here
  let second ← if c.isTight then accept .pseudo .colon else pure []
  let wanted := KindSet.ofList [.ident, .function]
  let c ← here
  if !c.isTight then fail .pseudo wanted
  else
    let word ← take .pseudo wanted
    let inner ← if c.isAt .function then balanced .pseudo else pure []
    return colon :: second ++ word :: inner

/-- The comparison in an attribute selector. -/
def attributeComparison : Parser (List Tree) := do
  if (← here).isAt .attributeMatch then
    let sign ← expect .attributeSelector .attributeMatch
    let values := KindSet.ofList [.ident, .string, .number, .dimension]
    if (← here).isAtAny values then return [sign, ← take .attributeSelector values]
    else fail .attributeSelector (.ofList [.ident, .string])
  else return []

/-- An attribute selector. -/
def attributeSelector : Parser Tree := node .attributeSelector do
  let left ← expect .attributeSelector .leftBracket
  let name ← expect .attributeSelector .ident
  let test ← attributeComparison
  let modifier ← accept .attributeSelector .ident
  let right ← expect .attributeSelector .rightBracket
  return left :: name :: test ++ modifier ++ [right]

/-- One part of a simple selector: a class, an id, an attribute, a pseudo class, a reference to the
parent or a name with variables. -/
def selectorPart : Parser Tree := node .selectorPart do
  match (← here).kind? with
  | some .leftBracket => return [← attributeSelector]
  | some .colon => return [← pseudo]
  | some .ampersand =>
    let parent ← expect .selectorPart .ampersand
    let c ← here
    let tail ← if c.isTight then accept .selectorPart .ident else pure []
    return parent :: tail
  | some .dot =>
    let dot ← expect .selectorPart .dot
    if (← here).isTight then return [dot, ← name]
    else fail .selectorPart (first .name)
  | _ => return [← take .selectorPart (first .selectorPart)]

/-- An element name or a part, and then further parts with nothing between them. -/
def simpleSelector : Parser Tree := node .simpleSelector do
  let c ← here
  let head ←
    if startsHere c .elementName then take .simpleSelector (first .elementName)
    else if startsHere c .selectorPart then selectorPart
    else fail .simpleSelector (first .simpleSelector)
  let more ← repeatWhile (fun c => c.isTight && startsHere c .selectorPart) do
    return [← selectorPart]
  return head :: more

/-- A combinator. -/
def combinator : Parser Tree := node .combinator do
  return [← take .combinator (first .combinator)]

/-- Whether the word that asks for extending everywhere ends the clause here. -/
def isAtAllWord (c : Cursor) : Bool :=
  c.isAt .ident && c.next?.any (·.text == "all") && c.secondKind? == some .rightParen

/-- A chain of at most `bound + 1` simple selectors, with combinators or blanks between them. -/
def selectorWithin (inExtend : Bool) : Nat → Parser Tree
  | 0 => node .selector do return [← simpleSelector]
  | bound + 1 => node .selector do
    let head ← simpleSelector
    let c ← here
    if startsHere c .combinator then
      let sign ← combinator
      return [head, sign, ← selectorWithin inExtend bound]
    -- two simple selectors with blanks between them are a descendant, without them one selector
    else if c.hasGap && startsHere c .selector && !(inExtend && isAtAllWord c) then
      return [head, ← selectorWithin inExtend bound]
    else return [head]

/-- A chain of simple selectors.  Each takes a token, so that there are no more than tokens. -/
def selector (inExtend : Bool) : Parser Tree := fun c => selectorWithin inExtend c.rest.length c

/-- The clause that extends other selectors. -/
def extendClause : Parser Tree := node .extendClause do
  let head ← expect .extendClause .extend
  let target ← selector true
  let more ← repeatWhile (·.isAt .comma) do
    return [← expect .extendClause .comma, ← selector true]
  let all ← if isAtAllWord (← here) then accept .extendClause .ident else pure []
  let right ← expect .extendClause .rightParen
  return head :: target :: more ++ all ++ [right]

/-- A selector, perhaps with a clause that extends others. -/
def selectorWithExtend : Parser (List Tree) := do
  let head ← selector false
  if (← here).isAt .extend then return [head, ← extendClause]
  else return [head]

/-- Selectors between commas. -/
def selectorList : Parser Tree := node .selectorList do
  let head ← selectorWithExtend
  let more ← repeatWhile (·.isAt .comma) do
    return (← expect .selectorList .comma) :: (← selectorWithExtend)
  return head ++ more

end LessCss.Parser
