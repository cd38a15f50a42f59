import LessCss.Node
import LessCss.Text.Collapse

/-!
# Writing stylesheets

A node is written either inside of other text or on lines of its own, in which case a *layout* says
how deep it is indented.  In a block the declarations and comments come first, then the nested
rules; imports come before all other rules of a stylesheet.
-/

namespace LessCss

/-- How rules are written that stand on lines of their own. -/
structure Layout where
  /-- Whether everything goes into one line. -/
  minify : Bool
  /-- How many blocks are around. -/
  level : Nat
  deriving DecidableEq, Repr

namespace Layout

/-- The layout inside of a block. -/
def deeper (l : Layout) : Layout := { l with level := l.level + 1 }

/-- The spaces at the start of a line, two for each block around. -/
def indent (l : Layout) : String := String.join (List.replicate l.level "  ")

/-- A text on a line of its own. -/
def line (l : Layout) (text : String) : String :=
  if l.minify then text else l.indent ++ text ++ "\n"

/-- A block with its heading. -/
def block (l : Layout) (heading body : String) : String :=
  if l.minify then heading ++ "\x7b" ++ body ++ "\x7d"
  else l.indent ++ heading ++ " \x7b\n" ++ body ++ l.indent ++ "\x7d\n"

/-- The lines of declarations and comments, put together. -/
def joinOwn (l : Layout) (lines : List String) : String :=
  if l.minify then ";".intercalate lines else String.join lines

/-- The heading of an at-rule with a block. -/
def heading (l : Layout) (name header : String) : String :=
  if (Text.trim header).isEmpty then name
  else name ++ " " ++ (if l.minify then Text.collapse header else Text.trim header)

/-- The heading of a rule set. -/
def selectors (l : Layout) (ss : List Selector) : String :=
  (if l.minify then "," else ", ").intercalate (ss.map (Selector.text l.minify))

end Layout

namespace Css

/-- A text inside of other text, or on a line of its own. -/
def place (layout : Option Layout) (text : String) : String :=
  match layout with
  | none => text
  | some l => l.line text

/-- A property with the text of its value. -/
def declarationText (s : Style) (name : String) (important : Bool) (value : String) : String :=
  let body :=
    if s.compress then Text.trim name ++ ":" ++ Text.collapse value
    else Text.trim name ++ ": " ++ Text.trim value
  if important then body ++ (if s.compress then "!important" else " !important") else body

/-- A declaration on a line of its own.  In one line with others the semicolons stand between
them. -/
def declarationLine (l : Layout) (text : String) : String :=
  l.line (if l.minify then text else text ++ ";")

/-- An at-rule without block. -/
def bareAtRule (name header : String) : String :=
  if (Text.trim header).isEmpty then name ++ ";" else name ++ " " ++ Text.collapse header ++ ";"

/-- A string in its quotes, or without them if it is escaped. -/
def quotedText (quote : Char) (text : String) (escaped : Bool) : String :=
  if escaped then text else quote.toString ++ text ++ quote.toString

/-- An operator between its operands. -/
def operationText (op : Operator) (spaced : Bool) (left right : String) : String :=
  if spaced then left ++ " " ++ op.symbol ++ " " ++ right else left ++ op.symbol ++ right

/-- The text between the items of a list. -/
def comma (s : Style) : String := if s.compress then "," else ", "

mutual
/-- Writes a node inside of other text, or by a layout on lines of its own.  Rules with a block that
stand inside of other text are laid out from the margin. -/
def render (s : Style) (layout : Option Layout) : Node → Except Error String
  | .dimension d => do return place layout (← d.render s)
  | .expression items _ _ tight => do
    return place layout ((if tight then "" else " ").intercalate (← renderEach s items))
  | .list items => do return place layout ((comma s).intercalate (← renderEach s items))
  | .paren inner => do return place layout ("(" ++ (← render s none inner) ++ ")")
  | .comment text _ => .ok (place layout text)
  | .keyword text => .ok (place layout text)
  | .quoted quote text escaped => .ok (place layout (quotedText quote text escaped))
  | .url text => .ok (place layout text)
  | .reference name _ => .ok (place layout name)
  | .operation op left right spaced _ => do
    let left ← render s none left
    return place layout (operationText op spaced left (← render s none right))
  | .negative inner => do return place layout ("-" ++ (← render s none inner))
  | .call name args _ => do
    return place layout (name ++ "(" ++ ", ".intercalate (← renderEach s args) ++ ")")
  | .declaration name value important _ _ => do
    let text := declarationText s name important (← render s none value)
    match layout with
    | none => return text
    | some l => return declarationLine l text
  | .selector sel => .ok (place layout (sel.text s.compress))
  | .ruleset sels rules _ =>
    let l := layout.getD ⟨s.compress, 0⟩
    if rules.isEmpty then .ok ""
    else do
      -- the declarations are written first, so that their errors come first too
      let own ← ownLines s l.deeper rules
      let nested ← nestedText s l.deeper rules
      return l.block (l.selectors sels) (l.joinOwn own ++ nested)
  | .media features rules =>
    let l := layout.getD ⟨s.compress, 0⟩
    if rules.isEmpty then .ok ""
    else do
      let header ← render s none features
      let own ← ownLines s l.deeper rules
      let nested ← nestedText s l.deeper rules
      return l.block (l.heading "@media" header) (l.joinOwn own ++ nested)
  | .atRule name header (some rules) => do
    let l := layout.getD ⟨s.compress, 0⟩
    let header ← renderHeader s header
    let own ← ownLines s l.deeper rules
    let nested ← nestedText s l.deeper rules
    return l.block (l.heading name header) (l.joinOwn own ++ nested)
  | .atRule name header none => do
    let l := layout.getD ⟨s.compress, 0⟩
    return l.line (bareAtRule name (← renderHeader s header))
  | .importRule path none _ => do
    return place layout ("@import " ++ (← render s none path) ++ ";")
  | .importRule path (some features) _ => do
    let path ← render s none path
    return place layout ("@import " ++ path ++ " " ++ (← render s none features) ++ ";")
  | .mixin .. => .ok (place layout "")
  | .mixinCall .. => .ok (place layout "")
  | .argument _ value => do return place layout (← render s none value)
/-- Writes every node of a row inside of other text. -/
def renderEach (s : Style) : List Node → Except Error (List String)
  | [] => .ok []
  | node :: nodes => do
    let text ← render s none node
    return text :: (← renderEach s nodes)
/-- Writes what stands between the name of an at-rule and its block or semicolon. -/
def renderHeader (s : Style) : Option Node → Except Error String
  | none => .ok ""
  | some header => render s none header
/-- Writes the declarations of a block, and its comments unless all goes into one line. -/
def ownLines (s : Style) (l : Layout) : List Node → Except Error (List String)
  | [] => .ok []
  | .declaration name value important _ _ :: nodes => do
    let text := declarationText s name important (← render s none value)
    return declarationLine l text :: (← ownLines s l nodes)
  | .comment text _ :: nodes => do
    let rest ← ownLines s l nodes
    return if l.minify then rest else l.line text :: rest
  | _ :: nodes => ownLines s l nodes
/-- Writes the rules of a block that are neither declarations nor comments. -/
def nestedText (s : Style) (l : Layout) : List Node → Except Error String
  | [] => .ok ""
  | node :: nodes =>
    if node.isOwn then nestedText s l nodes
    else do
      let text ← render s (some l) node
      return text ++ (← nestedText s l nodes)
end

/-- The text of a node inside of other text. -/
def inline (s : Style) (node : Node) : Except Error String := render s none node

/-- Whether a node is an import. -/
def isImport : Node → Bool
  | .importRule .. => true
  | _ => false

/-- Rules with an empty line between them; rules without text do not count. -/
def spaced : List String → String
  | [] => ""
  | [text] => text
  | text :: texts => (if text.isEmpty then "" else text ++ "\n") ++ spaced texts

/-- A text without the line ends behind it. -/
def dropLineEnds (text : String) : String :=
  String.ofList (text.toList.reverse.dropWhile (· == '\n')).reverse

/-- Writes a whole stylesheet. -/
def stylesheet (s : Style) (minify : Bool) (rules : List Node) : Except Error String := do
  let imports ← (rules.filter isImport).mapM (inline s)
  let texts ← (rules.filter (!isImport ·)).mapM (render s (some ⟨minify, 0⟩))
  let head := String.join (imports.map (· ++ "\n"))
  if minify then return dropLineEnds (head ++ String.join texts)
  else
    let gap := if imports.isEmpty || texts.isEmpty then "" else "\n"
    return Text.trim (head ++ gap ++ spaced texts)

end Css

end LessCss
