/-!
# Selectors

A selector is a chain of elements, each with the combinator before it, and a list of the selectors
that it extends.  Joining a selector to the one around it replaces every ampersand by the text of
the outer one; a selector without ampersand becomes a descendant.
-/

namespace LessCss

/-- How an element relates to the one before it. -/
inductive Combinator
  | none
  | descendant
  | child
  | adjacent
  | sibling
  deriving DecidableEq, Repr, Inhabited

namespace Combinator

/-- Every combinator. -/
def all : List Combinator := [none, descendant, child, adjacent, sibling]

/-- The combinator of a symbol; what is no symbol stands for a descendant. -/
def ofSymbol : String → Combinator
  | ">" => child
  | "+" => adjacent
  | "~" => sibling
  | _ => descendant

/-- The symbol of a combinator that has one. -/
def symbol? : Combinator → Option String
  | none | descendant => .none
  | child => some ">"
  | adjacent => some "+"
  | sibling => some "~"

/-- The name of a combinator in listings. -/
def name : Combinator → String
  | none => "None"
  | descendant => "Descendant"
  | child => "Child"
  | adjacent => "Adjacent"
  | sibling => "Sibling"

/-- What is written between two elements, or before the first one. -/
def text (compress isFirst : Bool) (c : Combinator) : String :=
  match c.symbol? with
  | some s => if compress then s else if isFirst then s ++ " " else " " ++ s ++ " "
  | .none => if c = descendant && !isFirst then " " else ""

end Combinator

/-- One element of a selector, with the combinator before it. -/
structure Element where
  combinator : Combinator
  text : String
  deriving DecidableEq, Repr, Inhabited

/-- A chain of elements, and the selectors that it extends: each with whether it is also to be
extended inside of longer selectors. -/
inductive Selector
  | mk (elements : List Element) (extending : List (Selector × Bool))
  deriving Repr, Inhabited

namespace Selector

/-- The elements of a selector. -/
def elements : Selector → List Element
  | mk es _ => es

/-- The selectors that a selector extends. -/
def extending : Selector → List (Selector × Bool)
  | mk _ xs => xs

/-- A selector that extends nothing. -/
def ofElements (es : List Element) : Selector := mk es []

/-- The texts of the elements behind the first one, with their combinators. -/
def tailText (compress : Bool) : List Element → String
  | [] => ""
  | e :: es => e.combinator.text compress false ++ e.text ++ tailText compress es

/-- A selector as it stands in a stylesheet. -/
def text (compress : Bool) (s : Selector) : String :=
  match s.elements with
  | [] => ""
  | e :: es => e.combinator.text compress true ++ e.text ++ tailText compress es

/-- The elements put side by side without combinators, by which mixins are looked up. -/
def key (s : Selector) : String := String.join (s.elements.map Element.text)

/-- Whether some element refers to the selector around it. -/
def hasParent (s : Selector) : Bool := s.elements.any fun e => e.text.toList.contains '&'

/-- A text with every ampersand replaced. -/
def replaceParent (parent : List Char) (cs : List Char) : List Char :=
  cs.flatMap fun c => if c == '&' then parent else [c]

/-- The selector inside of another one. -/
def join (parent s : Selector) : Selector :=
  if s.hasParent then
    let outer := (parent.text false).toList
    mk (s.elements.map fun e =>
      { e with text := String.ofList (replaceParent outer e.text.toList) })
      s.extending
  else
    match s.elements with
    | [] => mk parent.elements s.extending
    | e :: es =>
      let first := if e.combinator = .none then { e with combinator := .descendant } else e
      mk (parent.elements ++ first :: es) s.extending

/-- Every selector inside of every outer one, the outer ones first; without outer ones they stay as
they are. -/
def joinAll (parents own : List Selector) : List Selector :=
  if parents.isEmpty then own else parents.flatMap fun p => own.map (join p)

/-- Whether an element is a class or an id and nothing else. -/
def isPlain (e : Element) : Bool :=
  match e.text.toList with
  | [] => false
  | c :: cs =>
    (c == '.' || c == '#') && !(c :: cs).any fun c => c == '&' || c == ':' || c == '[' || c == '@'

/-- The name under which the rules of these selectors can be called as a mixin: there is one
selector, of plain elements, that extends nothing. -/
def callKey? : List Selector → Option String
  | [s] => if s.extending.isEmpty && s.elements.all isPlain then some s.key else none
  | _ => none

end Selector

end LessCss
