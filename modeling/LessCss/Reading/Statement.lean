import LessCss.Parser.Statement
import LessCss.Reading.Selector

/-!
# Reading statements off trees

Selectors with a block are a rule set, with a block and arguments the definition of a mixin, and
otherwise a call of one, unless they extend something.  A request to load a plugin is left out.

`Ruleset.ofText` reads a whole stylesheet.  It gives the first complaint that the lexer or the
parser had; of a text without complaints only a mixin with several selectors is refused.
-/

namespace LessCss

namespace Reading

/-- Reads the assignment of a variable.  A mark of importance becomes a part of the value. -/
def assignment (t : Tree) : Except Error Node :=
  match t.tokenOf? .atName with
  | none => missing t "变量名"
  | some name => do
    let content ← valueIn t
    let content := if t.hasToken .important then .row [content, .keyword "!important"] else content
    return .declaration name.text content false true name.start

/-- Reads a declaration. -/
def declaration (source : List Char) (t : Tree) : Except Error Node :=
  match t.node? .name with
  | none => missing t Phrase.name.title
  | some name => do
    let content ← valueIn t
    return .declaration (name.sourceText source) content (t.hasToken .important) false name.start

/-- The node of the path of an import. -/
def importPath? (t : Token) : Option Node :=
  match t.kind with
  | .string => some (quoted t false)
  | .uriString | .uriBare => some (.url t.text)
  | _ => none

/-- Reads an import. -/
def importRule (t : Tree) : Except Error Node := do
  let options := (t.tokens.filter (·.kind == .ident)).map Token.text
  let features ← (t.node? .mediaList).mapM mediaList
  match t.tokens.findSome? importPath? with
  | some path => return .importRule path features options
  | none => missing t "导入路径"

/-- The name of a mixin: of its one selector. -/
def mixinName (t : Tree) : List Selector → Except Error String
  | [s] => .ok s.key
  | _ => .error (.severalSelectors t.start)

/-- The text of the source between the name of an at-rule and its block or semicolon. -/
def rawHeader (source : List Char) (t : Tree) : Option Node :=
  let raw := t.tokens.filter fun x => x.kind != .atName && x.kind != .semicolon
  match raw.head?, raw.getLast? with
  | some first, some last =>
    some (.keyword (String.ofList (Text.slice source first.start last.stop)))
  | _, _ => none

/-- Reads what stands between the name of an at-rule and its block or semicolon. -/
def header (source : List Char) (t : Tree) : Except Error (Option Node) := do
  match t.node? .value with
  | some v => return some (← value v)
  | none => return rawHeader source t

/-- The queries of a media rule. -/
def mediaFeatures (t : Tree) : Except Error Node :=
  match t.node? .mediaList with
  | some queries => mediaList queries
  | none => missing t Phrase.mediaList.title

/-- The rules of a block that has to be there. -/
def required (t : Tree) : Option (List Node) → Except Error (List Node)
  | some rules => .ok rules
  | none => missing t Phrase.block.title

/-- The node of selectors without block: an empty rule set if they extend something, else a call. -/
def withoutBlock (t : Tree) (selectors : List Selector) : Except Error Node :=
  match t.node? .arguments with
  | some args => do
    let name ← mixinName t selectors
    return .mixinCall name (← callArguments args) (t.hasToken .important) t.start
  | none =>
    if selectors.any fun s => !s.extending.isEmpty then .ok (.ruleset selectors [] false)
    else do
      let name ← mixinName t selectors
      return .mixinCall name [] (t.hasToken .important) t.start

/-- The mixin whose definition has the given arguments, before its rules are read. -/
def definition (source : List Char) (t args : Tree) (selectors : List Selector) :
    Except Error Mixin := do
  let name ← mixinName t selectors
  let params ← parameters args
  return ⟨name, params, (t.node? .guard).map (·.sourceText source), []⟩

mutual
/-- Reads a statement; a plugin gives nothing. -/
def statement (source : List Char) : Tree → Except Error (Option Node)
  | .node .assignment parts => some <$> assignment (.node .assignment parts)
  | .node .declaration parts => some <$> declaration source (.node .declaration parts)
  | .node .rulesetOrMixin (list :: parts) => do
    let t := Tree.node .rulesetOrMixin (list :: parts)
    let selectors ← selectors source list
    if (t.node? .block).isNone then return some (← withoutBlock t selectors)
    else
      match t.node? .arguments with
      | some args =>
        -- the name is looked at before the rules, so that a wrong one is reported first
        let mixin ← definition source t args selectors
        let rules ← required t (← blockIn source parts)
        return some { mixin with rules }.toNode
      | none =>
        let rules ← required t (← blockIn source parts)
        return some (.ruleset selectors rules false)
  | .node .atRule [.node .importRule parts] => some <$> importRule (.node .importRule parts)
  | .node .atRule [.node .pluginRule _] => .ok none
  | .node .atRule [.node .mediaRule parts] => do
    let t := Tree.node .mediaRule parts
    let features ← mediaFeatures t
    let rules ← required t (← blockIn source parts)
    return some (.media features rules)
  | .node .atRule [.node .generalAtRule parts] => do
    let t := Tree.node .generalAtRule parts
    let content ← header source t
    let rules ← blockIn source parts
    match t.tokenOf? .atName with
    | some name => return some (.atRule name.text content rules)
    | none => missing t "at-rule 名称"
  | t => .error (.unknownStatement (t.phrase?.getD .statements) t.start)
/-- Reads a row of statements. -/
def statements (source : List Char) : List Tree → Except Error (List Node)
  | [] => .ok []
  | t :: ts => do
    let head ← statement source t
    return head.toList ++ (← statements source ts)
/-- Reads the statements of the first block among the parts of a phrase. -/
def blockIn (source : List Char) : List Tree → Except Error (Option (List Node))
  | [] => .ok none
  | .node .block [_, .node _ inner, _] :: _ => some <$> statements source inner
  | _ :: ts => blockIn source ts
end

end Reading

namespace Parse

/-- The first complaint about a text, those of the lexer before those of the parser. -/
def firstError? (p : Parse) : Option Error :=
  match p.strays, p.mismatches with
  | s :: _, _ => some (.stray s)
  | [], m :: _ => some (.mismatch m (m.offset p.length))
  | [], [] => none

end Parse

/-- Reads a whole stylesheet. -/
def Ruleset.ofText (source : String) : Except Error Ruleset :=
  let parse := Parse.ofText source
  match parse.firstError? with
  | some e => .error e
  | none => do
    return .ofRules (← Reading.statements source.toList parse.tree.children)

end LessCss
