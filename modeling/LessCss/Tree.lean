import LessCss.Grammar.Phrase
import LessCss.Text.Slice
import LessCss.Token

/-!
# Trees of phrases

Parsing a stylesheet gives a tree whose inner nodes are phrases and whose leaves are tokens.  The
leaves, read from left to right (`leaves`), are the tokens that the parser took, so that a tree
covers the text from its first to its last leaf, blanks and comments between them included.
-/

namespace LessCss

/-- A token, or a phrase with its parts from left to right. -/
inductive Tree
  | leaf (token : Token)
  | node (phrase : Phrase) (children : List Tree)
  deriving Repr, Inhabited

namespace Tree

/-- The parts of a phrase; a token has none. -/
def children : Tree → List Tree
  | leaf _ => []
  | node _ cs => cs

/-- The phrase of a tree that is no token. -/
def phrase? : Tree → Option Phrase
  | leaf _ => none
  | node p _ => some p

/-- The token of a tree that is one. -/
def token? : Tree → Option Token
  | leaf t => some t
  | node _ _ => none

mutual
/-- The tokens of a tree, from left to right. -/
def leaves : Tree → List Token
  | leaf t => [t]
  | node _ cs => leavesOf cs
/-- The tokens of a row of trees, from left to right. -/
def leavesOf : List Tree → List Token
  | [] => []
  | t :: ts => leaves t ++ leavesOf ts
end

mutual
/-- The first token of a tree. -/
def firstToken? : Tree → Option Token
  | leaf t => some t
  | node _ cs => firstTokenOf? cs
/-- The first token of a row of trees. -/
def firstTokenOf? : List Tree → Option Token
  | [] => none
  | t :: ts => (firstToken? t).or (firstTokenOf? ts)
end

mutual
/-- The last token of a tree. -/
def lastToken? : Tree → Option Token
  | leaf t => some t
  | node _ cs => lastTokenOf? cs
/-- The last token of a row of trees. -/
def lastTokenOf? : List Tree → Option Token
  | [] => none
  | t :: ts => (lastTokenOf? ts).or (lastToken? t)
end

mutual
theorem firstToken?_eq (t : Tree) : firstToken? t = (leaves t).head? := by
  cases t with
  | leaf t => rfl
  | node p cs => exact firstTokenOf?_eq cs
theorem firstTokenOf?_eq (ts : List Tree) : firstTokenOf? ts = (leavesOf ts).head? := by
  cases ts with
  | nil => rfl
  | cons t ts => simp [firstTokenOf?, leavesOf, firstToken?_eq t, firstTokenOf?_eq ts]
end

mutual
theorem lastToken?_eq (t : Tree) : lastToken? t = (leaves t).getLast? := by
  cases t with
  | leaf t => rfl
  | node p cs => exact lastTokenOf?_eq cs
theorem lastTokenOf?_eq (ts : List Tree) : lastTokenOf? ts = (leavesOf ts).getLast? := by
  cases ts with
  | nil => rfl
  | cons t ts => simp [lastTokenOf?, leavesOf, lastToken?_eq t, lastTokenOf?_eq ts]
end

/-- The parts that are phrases. -/
def nodes (t : Tree) : List Tree := t.children.filter (·.phrase?.isSome)

/-- The parts that are phrases of a given sort. -/
def nodesOf (t : Tree) (p : Phrase) : List Tree := t.children.filter (·.phrase? == some p)

/-- The first part that is a phrase of a given sort. -/
def node? (t : Tree) (p : Phrase) : Option Tree := (t.nodesOf p).head?

/-- The parts that are tokens. -/
def tokens (t : Tree) : List Token := t.children.filterMap token?

/-- The first part that is a token of a given kind. -/
def tokenOf? (t : Tree) (k : Kind) : Option Token := t.tokens.find? (·.kind == k)

/-- Whether some part is a token of a given kind. -/
def hasToken (t : Tree) (k : Kind) : Bool := (t.tokenOf? k).isSome

/-- Where a tree starts; a tree without tokens counts as starting at 0. -/
def start (t : Tree) : Nat := (t.firstToken?.map Token.start).getD 0

/-- The part of the source that a tree covers, from its first token through its last. -/
def sourceText (t : Tree) (source : List Char) : String :=
  match t.firstToken?, t.lastToken? with
  | some first, some last => String.ofList (Text.slice source first.start last.stop)
  | _, _ => ""

end Tree

end LessCss
