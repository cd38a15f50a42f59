import LessCss.Parser.Selector
import LessCss.Parser.Value
import LessCss.Token.Lexer

/-!
# Parsing statements

A stylesheet is a row of statements.  A statement that does not fit is noted as a mismatch, the
tokens up to the next boundary are skipped (`resume`), and parsing goes on, so that parsing a text
never fails as a whole.

A block is a row of statements between braces.  Blocks nest no deeper than there are tokens.
-/

namespace LessCss

namespace Parser

/-! ## Statements without blocks -/

/-- A mark of importance, where there is one, and the semicolon, which may be left out before a
closing brace. -/
def ending (phrase : Phrase) : Parser (List Tree) := do
  let important ← accept phrase .important
  if (← here).isAt .rightBrace then return important
  else return important ++ [← expect phrase .semicolon]

/-- A property with its value. -/
def declaration : Parser Tree := node .declaration do
  let property ← name
  let colon ← expect .declaration .colon
  let content ← value
  return property :: colon :: content :: (← ending .declaration)

/-- A variable with its value. -/
def assignment : Parser Tree := node .assignment do
  let head ← expect .assignment .atName
  let colon ← expect .assignment .colon
  let content ← value
  return head :: colon :: content :: (← ending .assignment)

/-- A string or an address. -/
def pathToken (phrase : Phrase) : Parser Tree :=
  take phrase (.ofList [.uriString, .uriBare, .string])

/-- The options of an import. -/
def importOptions : Parser (List Tree) := do
  if (← here).isAt .leftParen then
    let left ← expect .importRule .leftParen
    let option ← expect .importRule .ident
    let more ← repeatWhile (·.isAt .comma) do
      return [← expect .importRule .comma, ← expect .importRule .ident]
    return left :: option :: more ++ [← expect .importRule .rightParen]
  else return []

/-- An import of another stylesheet. -/
def importRule : Parser Tree := node .importRule do
  let head ← expect .importRule .atImport
  let options ← importOptions
  let path ← pathToken .importRule
  let c ← here
  let media ← if startsHere c .mediaList then pure [← mediaList] else pure []
  let semicolon ← expect .importRule .semicolon
  return head :: options ++ path :: media ++ [semicolon]

/-- The arguments of a plugin, kept as they are. -/
def pluginArguments : Parser (List Tree) := do
  if (← here).isAt .leftParen then
    let arguments ← node .pluginArguments do
      let left ← expect .pluginArguments .leftParen
      return left :: (← balanced .pluginArguments)
    return [arguments]
  else return []

/-- A request to load a plugin. -/
def pluginRule : Parser Tree := node .pluginRule do
  let head ← expect .pluginRule .atPlugin
  let arguments ← pluginArguments
  let path ← pathToken .pluginRule
  let semicolon ← expect .pluginRule .semicolon
  return head :: arguments ++ [path, semicolon]

/-! ## Statements with blocks -/

/-- Whether a selector list can name a mixin in a call: it is one chain of classes and ids. -/
def isCallable (selectors : Tree) : Bool :=
  selectors.leaves.all fun t => [Kind.classOrId, .plus, .greater, .tilde].contains t.kind

/-- Whether a selector list extends other selectors. -/
def hasExtend (selectors : Tree) : Bool := (selectors.node? .extendClause).isSome

/-- A phrase with the parts that a recovering parser finds. -/
def recoveringNode (phrase : Phrase) (p : Recovering (List Tree)) : Recovering Tree := do
  return .node phrase (← p)

/-- What follows the selectors of a rule set, or of a mixin that is defined or called. -/
def afterSelectors (block : Recovering Tree) (selectors : Tree) : Recovering (List Tree) := do
  let c ← (here : Parser Cursor)
  if c.isAt .leftParen then
    let args ← (arguments : Parser Tree)
    -- with a block behind its arguments a mixin is defined, without one it is called
    let c ← (here : Parser Cursor)
    if c.isAt .when then
      let condition ← (guard : Parser Tree)
      return [args, condition, ← block]
    else if c.isAt .leftBrace then return [args, ← block]
    else return args :: (← (ending .rulesetOrMixin : Parser (List Tree)))
  else if hasExtend selectors && c.isAt .semicolon then
    return [← (expect .rulesetOrMixin .semicolon : Parser Tree)]
  else if isCallable selectors && c.isAtAny (.ofList [.semicolon, .important, .rightBrace]) then
    (ending .rulesetOrMixin : Parser (List Tree))
  else if c.isAt .leftBrace then return [← block]
  else
    let wanted := KindSet.ofList [.leftBrace, .leftParen]
    let wanted := if hasExtend selectors || isCallable selectors then wanted.insert .semicolon
        else wanted
    (fail .rulesetOrMixin wanted : Parser (List Tree))

/-- A rule set, or a mixin that is defined or called; which of them is decided behind the
selectors. -/
def rulesetOrMixin (block : Recovering Tree) : Recovering Tree := recoveringNode .rulesetOrMixin do
  let selectors ← (selectorList : Parser Tree)
  return selectors :: (← afterSelectors block selectors)

/-- A block that applies under media conditions. -/
def mediaRule (block : Recovering Tree) : Recovering Tree := recoveringNode .mediaRule do
  let head ← (expect .mediaRule .atMedia : Parser Tree)
  let queries ← (mediaList : Parser Tree)
  return [head, queries, ← block]

/-- Takes tokens as they are, up to a brace or semicolon. -/
def rawPrelude : Parser (List Tree) :=
  let stops := KindSet.ofList [.leftBrace, .semicolon, .rightBrace]
  let others := KindSet.ofList (Kind.all.filter fun k => !stops.contains k)
  repeatWhile (·.isAtAny others) do return [← take .generalAtRule others]

/-- A value that goes up to a brace or semicolon. -/
def valuePrelude : Parser Tree := do
  let content ← value
  let stops := KindSet.ofList [.leftBrace, .semicolon]
  if (← here).isAtAny stops then return content else fail .generalAtRule stops

/-- What stands between the name of an at-rule and its block or semicolon: a value if it reads as
one. -/
def atRulePrelude : Parser (List Tree) := do
  if (← here).isAtAny (.ofList [.leftBrace, .semicolon]) then return []
  else
    match ← attempt valuePrelude with
    | some content => return [content]
    | none => rawPrelude

/-- An at-rule without rules of its own in the grammar. -/
def generalAtRule (block : Recovering Tree) : Recovering Tree := recoveringNode .generalAtRule do
  let head ← (expect .generalAtRule .atName : Parser Tree)
  let content ← (atRulePrelude : Parser (List Tree))
  let c ← (here : Parser Cursor)
  if c.isAt .semicolon then
    return head :: content ++ [← (expect .generalAtRule .semicolon : Parser Tree)]
  else return head :: content ++ [← block]

/-- An at-rule. -/
def atRule (block : Recovering Tree) : Recovering Tree := recoveringNode .atRule do
  let c ← (here : Parser Cursor)
  match c.kind? with
  | some .atImport => return [← (importRule : Parser Tree)]
  | some .atPlugin => return [← (pluginRule : Parser Tree)]
  | some .atMedia => return [← mediaRule block]
  | some .atName => return [← generalAtRule block]
  | _ => (fail .atRule (first .atRule) : Parser (List Tree))

/-- One statement.  Inside a block, what starts like a declaration is one if it reads as one. -/
def statement (block : Recovering Tree) (inBlock : Bool) : Recovering Tree := do
  let c ← (here : Parser Cursor)
  if c.isAt .atName && c.secondKind? == some .colon then (assignment : Parser Tree)
  else if startsHere c .atRule then atRule block
  else
    -- a name may start a declaration as well as a rule set, and declarations are tried first
    let early ← (if inBlock && startsHere c .declaration then attempt declaration else give none :
      Parser (Option Tree))
    match early with
    | some tree => return tree
    | none =>
      if startsHere c .rulesetOrMixin then rulesetOrMixin block
      else (fail .statements (first .statements) : Parser Tree)

/-! ## Rows of statements -/

/-- Skips to the next boundary behind a mismatch, with `depth` braces open: past a semicolon outside
of braces or the brace that closes the last open one, or up to a brace that closes more. -/
def resumeFrom (depth : Nat) (previous : Option Token) : List Token → Cursor
  | [] => ⟨previous, []⟩
  | t :: ts =>
    match t.kind, depth with
    | .semicolon, 0 => ⟨some t, ts⟩
    | .leftBrace, d => resumeFrom (d + 1) (some t) ts
    | .rightBrace, 0 => ⟨previous, t :: ts⟩
    | .rightBrace, 1 => ⟨some t, ts⟩
    | .rightBrace, d + 2 => resumeFrom (d + 1) (some t) ts
    | _, d => resumeFrom d (some t) ts

/-- The place behind a mismatch at which parsing goes on. -/
def resume (c : Cursor) : Cursor := resumeFrom 0 c.previous c.rest

/-- A row of statements, the mismatches noted in it, and the place behind it. -/
structure Body where
  statements : List Tree
  noted : List Mismatch
  next : Cursor

/-- At most `bound` statements.  A row inside a block ends before the closing brace; outside of
blocks a closing brace is noted and skipped. -/
def bodyWithin (statement : Recovering Tree) (inBlock : Bool) : Nat → Cursor → Body
  | 0, c => ⟨[], [], c⟩
  | bound + 1, c =>
    match c.rest with
    | [] => ⟨[], [], c⟩
    | t :: ts =>
      if t.kind = .rightBrace then
        if inBlock then ⟨[], [], c⟩
        else
          let body := bodyWithin statement inBlock bound ⟨some t, ts⟩
          { body with noted := ⟨.statements, first .statements, some t⟩ :: body.noted }
      else
        match statement c with
        | ⟨noted, .found tree next⟩ =>
          let body := bodyWithin statement inBlock bound next
          ⟨tree :: body.statements, noted ++ body.noted, body.next⟩
        | ⟨noted, .failed m next⟩ =>
          -- what was noted inside the statement lies before the place where it failed
          let body := bodyWithin statement inBlock bound (resume next)
          ⟨body.statements, noted ++ m :: body.noted, body.next⟩

/-- A row of statements.  Each round takes a token, so that there are no more rounds than tokens. -/
def body (statement : Recovering Tree) (inBlock : Bool) (c : Cursor) : Body :=
  bodyWithin statement inBlock c.rest.length c

/-- The statements of a row, as a recovering parser. -/
def bodyTree (statement : Recovering Tree) : Recovering Tree := fun c =>
  let b := body statement true c
  ⟨b.noted, .found (.node .statements b.statements) b.next⟩

/-- A block with blocks nested at most `bound` deep in it. -/
def blockWithin : Nat → Recovering Tree
  | 0 => recoveringNode .block do
    return [← (expect .block .leftBrace : Parser Tree)]
  | bound + 1 => recoveringNode .block do
    let left ← (expect .block .leftBrace : Parser Tree)
    let inner ← bodyTree (statement (blockWithin bound) true)
    let right ← (expect .block .rightBrace : Parser Tree)
    return [left, inner, right]

end Parser

/-! ## Parsing a text -/

/-- A text as a tree, with everything that was noted against it. -/
structure Parse where
  /-- The length of the text in bytes. -/
  length : Nat
  tree : Tree
  strays : List Stray
  mismatches : List Mismatch
  deriving Repr

namespace Parse

/-- Parses a row of tokens as a whole stylesheet. -/
def ofTokens (tokens : List Token) : Parser.Body :=
  Parser.body (Parser.statement (Parser.blockWithin tokens.length) false) false ⟨none, tokens⟩

/-- Parses a text as a whole stylesheet. -/
def ofText (source : String) : Parse :=
  let lexing := Lexing.ofText source
  let body := ofTokens lexing.tokens
  { length := source.utf8ByteSize
    tree := .node .statements body.statements
    strays := lexing.strays
    mismatches := body.noted }

/-- Whether anything was noted against the text. -/
def hasErrors (p : Parse) : Bool := !p.strays.isEmpty || !p.mismatches.isEmpty

end Parse

end LessCss
