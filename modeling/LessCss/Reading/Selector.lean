import LessCss.Reading.Value

/-!
# Reading selectors off trees

An element of a selector keeps the text of the source, blanks and comments inside of it included.
-/

namespace LessCss.Reading

/-- Reads the elements of a selector, `combinator` standing before the first one. -/
def elements (source : List Char) (combinator : Combinator) : Tree → Except Error (List Element)
  | .node _ [simple] => .ok [⟨combinator, simple.sourceText source⟩]
  | .node _ [simple, rest] => do
    return ⟨combinator, simple.sourceText source⟩ :: (← elements source .descendant rest)
  | .node _ [simple, sign, rest] => do
    let next := Combinator.ofSymbol (sign.sourceText source)
    return ⟨combinator, simple.sourceText source⟩ :: (← elements source next rest)
  | t => missing t "简单选择器"

/-- Reads a selector that extends nothing. -/
def selector (source : List Char) (t : Tree) : Except Error Selector := do
  return .ofElements (← elements source .none t)

/-- Reads what a clause extends. -/
def extendTargets (source : List Char) (t : Tree) : Except Error (List (Selector × Bool)) := do
  let all := t.tokens.any fun x => x.kind == .ident && x.text == "all"
  (t.nodesOf .selector).mapM fun s => do return (← selector source s, all)

/-- Reads selectors between commas, each perhaps with a clause behind it. -/
def selectorsOf (source : List Char) : List Tree → Except Error (List Selector)
  | [] => .ok []
  | .leaf _ :: ts => selectorsOf source ts
  | t :: .node .extendClause parts :: ts => do
    let own ← elements source .none t
    let targets ← extendTargets source (.node .extendClause parts)
    return .mk own targets :: (← selectorsOf source ts)
  | t :: ts => do
    let head ← selector source t
    return head :: (← selectorsOf source ts)

/-- Reads a selector list. -/
def selectors (source : List Char) (t : Tree) : Except Error (List Selector) :=
  selectorsOf source t.children

end LessCss.Reading
