import LessCss.Grammar.Phrase
import LessCss.Token.KindSet

/-!
# Grammars and what their phrases start with

A grammar lists the alternatives of each phrase.  An alternative need only be written out up to its
first symbol that cannot be left out, because the one question asked of a grammar is with which
kinds of token a phrase, or one of its alternatives, may start.

The answer is the least solution of the equations in `Grammar.step`.  It is reached by starting from
nothing and repeating the step until nothing changes; each repetition that changes something adds at
least one of finitely many facts, so that the bound on the number of repetitions in `Grammar.facts`
is enough.
-/

namespace LessCss

/-- A symbol of an alternative. -/
inductive Sym
  | token (kind : Kind)
  /-- Any kind of a category. -/
  | category (category : Category)
  | phrase (phrase : Phrase)
  /-- A phrase that may be left out. -/
  | optional (phrase : Phrase)
  | nothing
  deriving DecidableEq, Repr

/-- The alternatives of each phrase, or `none` for a phrase that the grammar does not define. -/
abbrev Grammar := Phrase → Option (List (List Sym))

/-- What is known of a phrase or of a sequence of symbols. -/
structure StartFacts where
  /-- The kinds of token with which it may start. -/
  first : KindSet
  /-- Whether it may be empty. -/
  nullable : Bool
  deriving DecidableEq, Repr

namespace StartFacts

/-- What is known of something that derives no text at all. -/
def none : StartFacts := ⟨KindSet.empty, false⟩

/-- What is known of a choice. -/
def union (a b : StartFacts) : StartFacts := ⟨a.first.union b.first, a.nullable || b.nullable⟩

/-- What is known of a sequence of symbols, given what is known of each phrase. -/
def ofSymbols (facts : Phrase → StartFacts) : List Sym → StartFacts
  | [] => ⟨KindSet.empty, true⟩
  | .token k :: _ => ⟨KindSet.ofList [k], false⟩
  | .category c :: _ => ⟨KindSet.ofList c.members, false⟩
  | .phrase p :: rest =>
    if (facts p).nullable then
      let tail := ofSymbols facts rest
      ⟨(facts p).first.union tail.first, tail.nullable⟩
    else ⟨(facts p).first, false⟩
  | .optional p :: rest =>
    let tail := ofSymbols facts rest
    ⟨(facts p).first.union tail.first, tail.nullable⟩
  | .nothing :: rest => ofSymbols facts rest

/-- What is known of a choice between alternatives. -/
def ofAlternatives (facts : Phrase → StartFacts) (alternatives : List (List Sym)) : StartFacts :=
  (alternatives.map (ofSymbols facts)).foldl union none

end StartFacts

namespace Grammar

/-- The grammar that defines no phrase. -/
def empty : Grammar := fun _ => none

/-- The grammar in which `p` has the given alternatives and no others. -/
def define (g : Grammar) (p : Phrase) (alternatives : List (List Sym)) : Grammar :=
  fun q => if q = p then some alternatives else g q

/-- The alternatives of a phrase. -/
def alternatives (g : Grammar) (p : Phrase) : List (List Sym) := (g p).getD []

/-- One step towards the facts: what the alternatives say, given what is known so far. -/
def step (g : Grammar) (known : Phrase.Table StartFacts) : Phrase.Table StartFacts :=
  .tabulate fun p => .ofAlternatives known.get (g.alternatives p)

/-- Repeats the step, at most `bound` times, until nothing changes. -/
def repeatStep (g : Grammar) : Nat → Phrase.Table StartFacts → Phrase.Table StartFacts
  | 0, known => known
  | bound + 1, known =>
    let next := g.step known
    -- nothing new: all further steps would change nothing either
    if next.entries = known.entries then known else repeatStep g bound next

/-- What each phrase may start with and whether it may be empty: at most 39 kinds and one further
fact are to be found for each of the 32 phrases. -/
def facts (g : Grammar) : Phrase.Table StartFacts :=
  g.repeatStep (32 * 40) (.tabulate fun _ => StartFacts.none)

end Grammar

/-- What the choice between the alternatives of a phrase goes by. -/
structure Choice where
  /-- The kinds with which each alternative may start. -/
  starts : List KindSet
  /-- Whether the kind of a token may leave a choice, because some alternatives have a start in
  common. -/
  overlapping : Bool
  deriving DecidableEq, Repr

namespace Choice

/-- Whether some set of a list has a member in common with a later one. -/
def anyOverlap : List KindSet → Bool
  | [] => false
  | s :: later => later.any (·.intersects s) || anyOverlap later

/-- The choice between alternatives with given starts. -/
def ofStarts (starts : List KindSet) : Choice := ⟨starts, anyOverlap starts⟩

/-- The first alternative that may start with `k`. -/
def index? (c : Choice) (k : Kind) : Option Nat := c.starts.findIdx? (·.contains k)

/-- Whether two or more alternatives may start with `k`.  Where no two have a start in common, they
need not be counted. -/
def isAmbiguous (c : Choice) (k : Kind) : Bool :=
  c.overlapping && c.starts.countP (·.contains k) > 1

end Choice

/-- A grammar together with what its phrases and their alternatives may start with. -/
structure Prediction where
  facts : Phrase.Table StartFacts
  /-- For each phrase, the choice between its alternatives. -/
  choices : Phrase.Table Choice

namespace Prediction

/-- Works out the start of every phrase and of every alternative. -/
def ofGrammar (g : Grammar) : Prediction :=
  let facts := g.facts
  { facts
    choices := .tabulate fun p =>
      .ofStarts ((g.alternatives p).map fun a => (StartFacts.ofSymbols facts.get a).first) }

/-- The kinds with which a phrase may start. -/
def first (t : Prediction) (p : Phrase) : KindSet := (t.facts.get p).first

/-- The first alternative of `p` that may start with `k`. -/
def choose? (t : Prediction) (p : Phrase) (k : Kind) : Option Nat := (t.choices.get p).index? k

/-- Whether two or more alternatives of `p` may start with `k`. -/
def isAmbiguous (t : Prediction) (p : Phrase) (k : Kind) : Bool := (t.choices.get p).isAmbiguous k

end Prediction

/-! ## The language of stylesheets -/

namespace Grammar

/-- The grammar of the language, each alternative up to its first symbol that cannot be left out. -/
def stylesheet : Phrase → List (List Sym)
  | .statements =>
    [[.phrase .atRule], [.phrase .assignment], [.phrase .declaration], [.phrase .rulesetOrMixin],
     [.nothing]]
  | .rulesetOrMixin => [[.phrase .selectorList]]
  | .selectorList => [[.phrase .selector]]
  | .extendClause => [[.token .extend]]
  | .selector => [[.phrase .simpleSelector]]
  | .simpleSelector => [[.phrase .elementName], [.phrase .selectorPart]]
  | .elementName => [[.token .ident], [.token .star], [.token .dimension], [.token .number]]
  | .selectorPart =>
    [[.token .classOrId], [.token .hash], [.phrase .attributeSelector], [.phrase .pseudo],
     [.token .ampersand], [.token .dot], [.token .atBraces]]
  | .pseudo => [[.token .colon]]
  | .attributeSelector => [[.token .leftBracket]]
  | .combinator => [[.token .plus], [.token .greater], [.token .tilde]]
  | .block => [[.token .leftBrace]]
  | .declaration => [[.phrase .name]]
  | .name => [[.token .ident], [.token .atBraces]]
  | .assignment => [[.token .atName]]
  | .value => [[.phrase .expression]]
  | .expression => [[.phrase .sum]]
  | .sum => [[.phrase .product]]
  | .product => [[.phrase .operand]]
  | .operand =>
    [[.token .minus], [.token .dimension], [.token .number], [.token .ident], [.token .hash],
     [.token .classOrId], [.token .string], [.token .tilde], [.category .uri], [.token .atName],
     [.token .atBraces], [.token .function], [.phrase .parens]]
  | .parens => [[.token .leftParen]]
  | .arguments => [[.token .leftParen]]
  | .argument => [[.token .atName], [.phrase .expression]]
  | .guard => [[.token .when]]
  | .atRule =>
    [[.phrase .importRule], [.phrase .pluginRule], [.phrase .mediaRule], [.phrase .generalAtRule]]
  | .importRule => [[.token .atImport]]
  | .pluginRule => [[.token .atPlugin, .optional .pluginArguments]]
  | .pluginArguments => [[.token .leftParen]]
  | .mediaRule => [[.token .atMedia]]
  | .mediaList => [[.phrase .mediaQuery]]
  | .mediaQuery => [[.token .ident], [.category .logical], [.phrase .parens]]
  | .generalAtRule => [[.token .atName]]

end Grammar

/-- What the phrases of the language start with. -/
def Prediction.stylesheet : Prediction := .ofGrammar fun p => some (Grammar.stylesheet p)

/-! ## The starts of its phrases -/

namespace Phrase

/-- The kinds with which an operand may start. -/
def operandStarts : KindSet :=
  .ofList
    [.uriString, .uriBare, .string, .atBraces, .atName, .function, .classOrId, .hash, .ident,
      .dimension, .number, .leftParen, .minus, .tilde]

/-- The kinds with which an element name may start. -/
def elementStarts : KindSet := .ofList [.ident, .dimension, .number, .star]

/-- The kinds with which a part of a simple selector may start. -/
def partStarts : KindSet :=
  .ofList [.atBraces, .classOrId, .hash, .leftBracket, .colon, .ampersand, .dot]

/-- The kinds with which an at-rule may start. -/
def atRuleStarts : KindSet := .ofList [.atImport, .atMedia, .atPlugin, .atName]

/-- The kinds with which a phrase of the language may start, listed so that the parser need not work
them out.  They are those that the grammar gives (`Prediction.first_stylesheet`). -/
def starts : Phrase → KindSet
  | statements => atRuleStarts.union (elementStarts.union partStarts)
  | rulesetOrMixin | selectorList | selector | simpleSelector => elementStarts.union partStarts
  | extendClause => .ofList [.extend]
  | elementName => elementStarts
  | selectorPart => partStarts
  | pseudo => .ofList [.colon]
  | attributeSelector => .ofList [.leftBracket]
  | combinator => .ofList [.plus, .greater, .tilde]
  | block => .ofList [.leftBrace]
  | declaration | name => .ofList [.ident, .atBraces]
  | assignment | generalAtRule => .ofList [.atName]
  | value | expression | sum | product | operand | argument => operandStarts
  | parens | arguments | pluginArguments => .ofList [.leftParen]
  | guard => .ofList [.when]
  | atRule => atRuleStarts
  | importRule => .ofList [.atImport]
  | pluginRule => .ofList [.atPlugin]
  | mediaRule => .ofList [.atMedia]
  | mediaList | mediaQuery => .ofList [.ident, .and, .or, .leftParen]

end Phrase

end LessCss
