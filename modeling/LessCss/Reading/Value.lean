import LessCss.Node
import LessCss.Tree

/-!
# Reading values off trees

A tree of phrases is turned into nodes phrase by phrase.  Sums and products associate to the left.
Each parenthesis remembers whether it is an operand of some operator, for that decides later which
of the parentheses count.
-/

namespace LessCss.Reading

/-- The complaint about a tree that lacks a part. -/
def missing {α : Type} (t : Tree) (part : String) : Except Error α :=
  .error (.missing (t.phrase?.getD .statements) part t.start)

/-- The string of a token, without its quotes. -/
def quoted (t : Token) (escaped : Bool) : Node :=
  let cs := t.text.toList
  .quoted (cs.head?.getD '\x22') (String.ofList cs.tail.dropLast) escaped

/-- The name of a variable in braces, with its at sign. -/
def braceName (t : Token) : String := "@" ++ String.ofList (t.text.toList.drop 2).dropLast

/-- The name of a function, without the parentheses at its end. -/
def functionName (t : Token) : String :=
  String.ofList (t.text.toList.reverse.dropWhile (· == '(')).reverse

/-- The number of a token. -/
def number (t : Token) : Except Error Node :=
  match Dimension.read t.text with
  | .ok d => .ok (.dimension d)
  | .error _ => .error (.badNumber t.text t.start)

/-- The node of an operand that is a single token. -/
def single (t : Token) : Except Error Node :=
  match t.kind with
  | .dimension | .number => number t
  | .string => .ok (quoted t false)
  | .atName => .ok (.reference t.text t.start)
  | .atBraces => .ok (.reference (braceName t) t.start)
  | .uriString | .uriBare => .ok (.url t.text)
  | _ => .ok (.keyword t.text)

/-- The operand behind a minus sign: a number changes its sign at once. -/
def negated : Node → Node
  | .dimension d => .dimension { d with value := -d.value }
  | node => .negative node

/-- The operation that joins two operands; `leftStop` is where the left one ends. -/
def joined (op : Token) (left right : Node) (leftStop : Nat) : Except Error Node :=
  match Operator.ofSymbol? op.text with
  | some o => .ok (.operation o left right (op.start > leftStop) op.start)
  | none => .error (.unknownOperator op.text op.start)

/-- Where a tree ends. -/
def stopOf (t : Tree) : Nat := (t.lastToken?.map Token.stop).getD 0

/-- A media feature: its name with a colon, and its value. -/
def feature (name : Token) (items : List Node) : Node :=
  .paren (.row [.keyword (name.text ++ ":"), .list items])

/-- What stands in parentheses: the items of a single row, or a list of rows. -/
def parenItems : List Node → List Node
  | [.expression items _ _ _] => items
  | [] => []
  | rows => [.list rows]

mutual
/-- Reads an operand; `inOp` tells whether it belongs to an operator. -/
def operand (inOp : Bool) : Tree → Except Error Node
  | .node _ [x] =>
    match x.token? with
    | some t => single t
    | none => parens false inOp x
  | .node p [.leaf t, x] =>
    match t.kind, x.token? with
    | .minus, none => do return negated (← operand inOp x)
    | .tilde, some string => .ok (quoted string true)
    | .function, some _ => .ok (.call (functionName t) [] t.start)
    | _, _ => missing (.node p [.leaf t, x]) "操作数"
  | .node _ [.leaf t, x, _] => do return .call (functionName t) (← rows x) t.start
  | t => missing t "操作数"
/-- Reads a product. -/
def product (inOp : Bool) : Tree → Except Error Node
  | .node _ (head :: rest) => do
    let inOp := inOp || !rest.isEmpty
    productRest inOp (← operand inOp head) (stopOf head) rest
  | t => missing t "操作数"
/-- Reads the further operands of a product, the earlier ones being `left`. -/
def productRest (inOp : Bool) (left : Node) (leftStop : Nat) : List Tree → Except Error Node
  | [] => .ok left
  | .leaf op :: x :: rest => do
    let right ← operand inOp x
    productRest inOp (← joined op left right leftStop) (stopOf x) rest
  | t :: _ => missing t "运算符"
/-- Reads a sum. -/
def sum : Tree → Except Error Node
  | .node _ (head :: rest) => do
    let inOp := !rest.isEmpty
    sumRest inOp (← product inOp head) (stopOf head) rest
  | t => missing t "操作数"
/-- Reads the further products of a sum, the earlier ones being `left`. -/
def sumRest (inOp : Bool) (left : Node) (leftStop : Nat) : List Tree → Except Error Node
  | [] => .ok left
  | .leaf op :: x :: rest => do
    let right ← product inOp x
    sumRest inOp (← joined op left right leftStop) (stopOf x) rest
  | t :: _ => missing t "运算符"
/-- Reads the sums of a row. -/
def sums : List Tree → Except Error (List Node)
  | [] => .ok []
  | t :: ts => do
    let head ← sum t
    return head :: (← sums ts)
/-- Reads a row. -/
def expression : Tree → Except Error Node
  | .node _ ts => do return .row (← sums ts)
  | t => missing t "操作数"
/-- Reads the rows between the commas. -/
def rowsOf : List Tree → Except Error (List Node)
  | [] => .ok []
  | .leaf _ :: ts => rowsOf ts
  | t :: ts => do
    let head ← expression t
    return head :: (← rowsOf ts)
/-- Reads the rows of a value. -/
def rows : Tree → Except Error (List Node)
  | .node _ ts => rowsOf ts
  | t => missing t "操作数"
/-- Reads parentheses.  Those of a media query are always written. -/
def parens (inMedia inOp : Bool) : Tree → Except Error Node
  | .node _ [_, .leaf name, _, content, _] => do return feature name (← rows content)
  | .node _ [_, content, _] => do
    let items ← rows content
    if inMedia then return .paren (.list items)
    else return .expression (parenItems items) true inOp false
  | t => missing t Phrase.value.title
end

/-- Reads a value. -/
def value (t : Tree) : Except Error Node := do return .list (← rows t)

/-- Reads the value among the parts of a phrase. -/
def valueIn (t : Tree) : Except Error Node :=
  match t.node? .value with
  | some v => value v
  | none => missing t Phrase.value.title

/-! ## Media queries -/

/-- Reads the words and features of a media query. -/
def mediaParts : List Tree → Except Error (List Node)
  | [] => .ok []
  | .leaf t :: ts => do return .keyword t.text :: (← mediaParts ts)
  | t :: ts => do
    let head ← parens true false t
    return head :: (← mediaParts ts)

/-- Reads a list of media queries. -/
def mediaList (t : Tree) : Except Error Node := do
  let queries ← (t.nodesOf .mediaQuery).mapM fun q => mediaParts q.children
  return .list (queries.map Node.row)

/-! ## Arguments -/

/-- Reads the expression of an argument. -/
def argumentValue (t : Tree) : Except Error Node :=
  match t.node? .expression with
  | some e => expression e
  | none => missing t Phrase.expression.title

/-- Reads the arguments of a call. -/
def callArguments (t : Tree) : Except Error (List Node) :=
  (t.nodesOf .argument).mapM fun a => do
    return .argument ((a.tokenOf? .atName).map Token.text) (← argumentValue a)

/-- Reads a parameter: a name with a default, a name alone, or a value without name. -/
def parameter (t : Tree) : Except Error (Option String × Option Node) := do
  let content ← argumentValue t
  match t.tokenOf? .atName, content with
  | some name, _ => return (some name.text, some content)
  | none, .expression [.reference name _] _ _ _ => return (some name, none)
  | none, _ => return (none, some content)

/-- Reads the parameters of a mixin. -/
def parameters (t : Tree) : Except Error (List (Option String × Option Node)) :=
  (t.nodesOf .argument).mapM parameter

end LessCss.Reading
