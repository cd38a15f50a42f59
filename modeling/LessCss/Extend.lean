import LessCss.Node

/-!
# Extending selectors

A selector with an extend clause is added to every rule set that has the target of the clause among
its selectors.  With the word `all` it also stands in for the target inside of longer selectors, but
only where the target is not part of a longer name there.
-/

namespace LessCss

/-- One clause: the selector that extends, the text of the target, and whether it counts inside of
longer selectors. -/
structure Extension where
  extender : Selector
  target : String
  all : Bool
  deriving Repr

namespace Extension

/-- The clauses of some selectors. -/
def ofSelectors (ss : List Selector) : List Extension :=
  ss.flatMap fun s => s.extending.map fun x => ⟨.ofElements s.elements, x.1.text false, x.2⟩

mutual
/-- The clauses of all rule sets in a node, an outer one before those inside of it. -/
def ofNode : Node → List Extension
  | .expression items _ _ _ => ofNodes items
  | .list items => ofNodes items
  | .paren inner => ofNode inner
  | .operation _ left right _ _ => ofNode left ++ ofNode right
  | .negative inner => ofNode inner
  | .call _ args _ => ofNodes args
  | .declaration _ value _ _ _ => ofNode value
  | .ruleset selectors rules _ => ofSelectors selectors ++ ofNodes rules
  | .atRule _ header rules => ofHeader header ++ ofBlock rules
  | .media features rules => ofNode features ++ ofNodes rules
  | .importRule path features _ => ofNode path ++ ofHeader features
  | .mixin _ _ _ rules => ofNodes rules
  | .mixinCall _ args _ _ => ofNodes args
  | .argument _ value => ofNode value
  | .dimension _ | .comment .. | .keyword _ | .quoted .. | .url _ | .reference ..
  | .selector _ => []
/-- The clauses in a row of nodes. -/
def ofNodes : List Node → List Extension
  | [] => []
  | node :: nodes => ofNode node ++ ofNodes nodes
/-- The clauses in a node that may be missing. -/
def ofHeader : Option Node → List Extension
  | none => []
  | some node => ofNode node
/-- The clauses in a block that may be missing. -/
def ofBlock : Option (List Node) → List Extension
  | none => []
  | some nodes => ofNodes nodes
end

/-! ## Whole names -/

/-- Whether a character can be part of a name. -/
def isNameChar (c : Char) : Bool := c.isAlphanum || c == '-' || c == '_' || c.val ≥ 0x80

/-- Whether a name would go on across the border between two characters. -/
def goesOn (a b : Option Char) : Bool := a.any isNameChar && b.any isNameChar

/-- Whether `target`, which stands between two characters, is a whole name there and not part of a
longer one. -/
def isWhole (target : List Char) (before after : Option Char) : Bool :=
  !goesOn before target.head? && !goesOn target.getLast? after

/-- Goes through a text and replaces the target where it is whole.  Matches do not overlap, and one
that is not whole is passed over as a whole too.  `ahead` characters belong to a match that has been
dealt with, and `keep` tells whether that match stays.  The result tells whether anything was
replaced. -/
def replaceFrom (target replacement : List Char) (before : Option Char) (ahead : Nat)
    (keep : Bool) :
    List Char → Bool × List Char
  | [] => (false, [])
  | c :: cs =>
    match ahead with
    | k + 1 =>
      let (hit, rest) := replaceFrom target replacement (some c) k keep cs
      (hit, if keep then c :: rest else rest)
    | 0 =>
      if target.isPrefixOf (c :: cs) then
        if isWhole target before ((c :: cs).drop target.length).head? then
          -- the first character goes here, the others of the match go in the steps ahead
          let (_, rest) := replaceFrom target replacement (some c) (target.length - 1) false cs
          (true, replacement ++ rest)
        else
          let (hit, rest) := replaceFrom target replacement (some c) (target.length - 1) true cs
          (hit, c :: rest)
      else
        let (hit, rest) := replaceFrom target replacement (some c) 0 true cs
        (hit, c :: rest)

/-- A text with the target replaced wherever it is whole, if it is so anywhere. -/
def replaceWhole? (text target replacement : String) : Option String :=
  if target.isEmpty then none
  else
    match replaceFrom target.toList replacement.toList none 0 true text.toList with
    | (true, cs) => some (String.ofList cs)
    | (false, _) => none

/-! ## Adding selectors -/

/-- What a clause adds to a rule set that has a selector with the given text. -/
def added? (x : Extension) (text : String) : Option Selector :=
  if text = x.target then some x.extender
  else if x.all then
    (replaceWhole? text x.target (x.extender.text false)).map fun t => .ofElements [⟨.none, t⟩]
  else none

/-- Adds selectors whose text is not there yet. -/
def addNew (selectors : List Selector) : List Selector → List Selector
  | [] => selectors
  | s :: ss =>
    if (selectors.map (Selector.text false)).contains (s.text false) then addNew selectors ss
    else addNew (selectors ++ [s]) ss

/-- The selectors of a rule set with what the clauses add. -/
def extend (xs : List Extension) (selectors : List Selector) : List Selector :=
  addNew selectors
    ((selectors.map (Selector.text false)).flatMap fun text => xs.filterMap (·.added? text))

end Extension

/-! ## All rule sets of a node -/

namespace Node

mutual
/-- Changes the selectors of all rule sets in a node. -/
def mapSelectors (f : List Selector → List Selector) : Node → Node
  | expression items parens operand tight =>
    expression (mapSelectorsAll f items) parens operand tight
  | list items => list (mapSelectorsAll f items)
  | paren inner => paren (mapSelectors f inner)
  | operation op left right spaced offset =>
    operation op (mapSelectors f left) (mapSelectors f right) spaced offset
  | negative inner => negative (mapSelectors f inner)
  | call name args offset => call name (mapSelectorsAll f args) offset
  | declaration name value important isVariable offset =>
    declaration name (mapSelectors f value) important isVariable offset
  | ruleset selectors rules root => ruleset (f selectors) (mapSelectorsAll f rules) root
  | atRule name header rules =>
    atRule name (mapSelectorsHeader f header) (mapSelectorsBlock f rules)
  | media features rules => media (mapSelectors f features) (mapSelectorsAll f rules)
  | importRule path features options =>
    importRule (mapSelectors f path) (mapSelectorsHeader f features) options
  | mixin name params guard rules => mixin name params guard (mapSelectorsAll f rules)
  | mixinCall name args important offset => mixinCall name (mapSelectorsAll f args) important offset
  | argument name value => argument name (mapSelectors f value)
  | dimension d => dimension d
  | comment text isLine => comment text isLine
  | keyword text => keyword text
  | quoted quote text escaped => quoted quote text escaped
  | url text => url text
  | reference name offset => reference name offset
  | selector s => selector s
/-- Changes the selectors of all rule sets in a row of nodes. -/
def mapSelectorsAll (f : List Selector → List Selector) : List Node → List Node
  | [] => []
  | node :: nodes => mapSelectors f node :: mapSelectorsAll f nodes
/-- Changes the selectors of all rule sets in a node that may be missing. -/
def mapSelectorsHeader (f : List Selector → List Selector) : Option Node → Option Node
  | none => none
  | some node => some (mapSelectors f node)
/-- Changes the selectors of all rule sets in a block that may be missing. -/
def mapSelectorsBlock (f : List Selector → List Selector) : Option (List Node) → Option (List Node)
  | none => none
  | some nodes => some (mapSelectorsAll f nodes)
end

end Node

/-- Adds to all rule sets what the clauses anywhere in the stylesheet ask for. -/
def Ruleset.extend (r : Ruleset) : Ruleset :=
  let xs := Extension.ofNode r.toNode
  ⟨Extension.extend xs r.selectors, Node.mapSelectorsAll (Extension.extend xs) r.rules, r.root⟩

end LessCss
