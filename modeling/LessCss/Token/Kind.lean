/-!
# Kinds of tokens

A stylesheet is read as a sequence of tokens, each of one `Kind`.  The order in which the kinds are
declared is the order in which the lexer tries them, and the order in which sets of kinds are
listed.
-/

namespace LessCss

/-- What a token is.  Earlier kinds are tried before later ones. -/
inductive Kind
  | uriString
  | uriBare
  | string
  | important
  | extend
  | atImport
  | atMedia
  | atPlugin
  | atBraces
  | atName
  | function
  | when
  | and
  | or
  | classOrId
  | hash
  | ident
  | dimension
  | number
  | leftBrace
  | rightBrace
  | leftParen
  | rightParen
  | leftBracket
  | rightBracket
  | semicolon
  | comma
  | attributeMatch
  | colon
  | ampersand
  | greater
  | less
  | plus
  | minus
  | star
  | slash
  | tilde
  | equals
  | dot
  deriving DecidableEq, Repr, Inhabited

namespace Kind

/-- Every kind, in order of declaration. -/
def all : List Kind :=
  [uriString, uriBare, string, important, extend, atImport, atMedia, atPlugin, atBraces, atName,
   function, when, and, or, classOrId, hash, ident, dimension, number, leftBrace, rightBrace,
   leftParen, rightParen, leftBracket, rightBracket, semicolon, comma, attributeMatch, colon,
   ampersand, greater, less, plus, minus, star, slash, tilde, equals, dot]

/-- The place of a kind in the order of declaration. -/
def index (k : Kind) : Nat := k.ctorIdx

/-- The name of a kind in messages. -/
def name : Kind → String
  | uriString => "UriString"
  | uriBare => "UriUrl"
  | string => "StringLiteral"
  | important => "ImportantSym"
  | extend => "Extend"
  | atImport => "ImportSym"
  | atMedia => "MediaSym"
  | atPlugin => "PluginSym"
  | atBraces => "InterpolatedVar"
  | atName => "AtName"
  | function => "Func"
  | when => "When"
  | and => "And"
  | or => "Or"
  | classOrId => "ClassOrId"
  | hash => "Hash"
  | ident => "Ident"
  | dimension => "Dimension"
  | number => "Num"
  | leftBrace => "LCurly"
  | rightBrace => "RCurly"
  | leftParen => "LParen"
  | rightParen => "RParen"
  | leftBracket => "LSquare"
  | rightBracket => "RSquare"
  | semicolon => "SemiColon"
  | comma => "Comma"
  | attributeMatch => "AttrMatch"
  | colon => "Colon"
  | ampersand => "Ampersand"
  | greater => "Gt"
  | less => "Lt"
  | plus => "Plus"
  | minus => "Minus"
  | star => "Star"
  | slash => "Divide"
  | tilde => "Tilde"
  | equals => "Eq"
  | dot => "Dot"

/-- The kind with a given name. -/
def ofName? (s : String) : Option Kind := all.find? (·.name == s)

theorem mem_all (k : Kind) : k ∈ all := by cases k <;> decide

theorem index_lt (k : Kind) : k.index < 39 := by cases k <;> decide

/-- A kind is found in the list of all kinds at its index. -/
theorem getElem?_all_index (k : Kind) : all[k.index]? = some k := by cases k <;> rfl

theorem index_injective {j k : Kind} (h : j.index = k.index) : j = k := by
  have hj := getElem?_all_index j
  rw [h, getElem?_all_index k] at hj
  exact (Option.some.inj hj).symm

end Kind

/-- A class of kinds that the grammar treats alike. -/
inductive Category
  /-- Both ways of writing an address: quoted and bare. -/
  | uri
  /-- The two words that join conditions. -/
  | logical
  deriving DecidableEq, Repr

namespace Category

def all : List Category := [uri, logical]

/-- The kinds of a category. -/
def members : Category → List Kind
  | uri => [.uriString, .uriBare]
  | logical => [.and, .or]

/-- The name of a category in listings. -/
def name : Category → String
  | uri => "Uri"
  | logical => "Logical"

def ofName? (s : String) : Option Category := all.find? (·.name == s)

end Category

namespace Kind

/-- Whether a kind belongs to a category. -/
def isIn (k : Kind) (c : Category) : Bool := c.members.contains k

/-- The categories of a kind. -/
def categories (k : Kind) : List Category := Category.all.filter k.isIn

end Kind

end LessCss
