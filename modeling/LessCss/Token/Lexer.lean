import LessCss.Text.Slice
import LessCss.Token
import LessCss.Token.Pattern

/-!
# Cutting a text into tokens

The lexer stands at some place of the text and tries its rules in order; the first that matches cuts
off a token or a piece of trivia.  Where none matches, one character is skipped, and neighbouring
skipped characters form one stray stretch.  Nothing is lost: `flatten_text_pieces` says that the
pieces of a text, put side by side, are the text.

Keywords do not tear names apart: where a longer name starts at the same place, the name wins.
-/

namespace LessCss

namespace Lexer

/-! ## Classes of characters -/

/-- A blank that ends a line. -/
def isLineEnd (c : Char) : Bool := c == '\n' || c == '\r' || c == '\x0c'

/-- A blank. -/
def isBlank (c : Char) : Bool := c == ' ' || c == '\t' || isLineEnd c

/-- A hexadecimal digit. -/
def isHex (c : Char) : Bool :=
  c.isDigit || ('a' ≤ c && c ≤ 'f') || ('A' ≤ c && c ≤ 'F')

/-- A character outside ASCII. -/
def isWide (c : Char) : Bool := c.val ≥ 0x80

/-- A letter of ASCII or the underscore. -/
def isLetter (c : Char) : Bool := c.isAlpha || c == '_'

/-- A plain character with which a name may start. -/
def isNameStart (c : Char) : Bool := isLetter c || isWide c

/-- A plain character with which a name may go on. -/
def isNameChar (c : Char) : Bool := isNameStart c || c.isDigit || c == '-'

/-- A plain character of a bare address. -/
def isUriChar (c : Char) : Bool :=
  c == '!' || c == '#' || c == '$' || c == '%' || c == '&' || ('*' ≤ c && c ≤ '[')
    || (']' ≤ c && c ≤ '~') || isWide c

/-! ## Patterns -/

open Pattern

/-- Any number of blanks. -/
def blanks : Pattern := run isBlank

/-- A backslash with up to six hexadecimal digits and one blank that ends them, or a backslash with
any character other than a digit or line end. -/
def escape : Pattern :=
  firstOf
    [concat [just '\\', runUpTo 6 isHex, optional (char isBlank)],
     concat [just '\\', char fun c => !isHex c && !isLineEnd c]]

/-- One character of a name, plain or escaped. -/
def nameChar : Pattern := firstOf [char isNameChar, escape]

/-- A name: two dashes and at least one character, or an optional dash and a character other than
dash and digit, and then further characters. -/
def name : Pattern :=
  firstOf
    [concat [just '-', just '-', many1 nameChar],
     concat [optional (just '-'), firstOf [char isNameStart, escape], many nameChar]]

/-- A line end behind a backslash, by which a string goes on in the next line. -/
def continuation : Pattern :=
  concat [just '\\', firstOf [word ['\r', '\n'], char isLineEnd]]

/-- A string between two copies of a quote. -/
def stringIn (quote : Char) : Pattern :=
  concat
    [just quote,
     many (firstOf [char fun c => !isLineEnd c && c != quote && c != '\\', escape, continuation]),
     just quote]

/-- A string in either quote. -/
def string : Pattern := firstOf [stringIn '\x22', stringIn '\x27']

/-- The start of an address. -/
def uriOpen : Pattern := word ['u', 'r', 'l', '(']

/-- Digits, perhaps with a point among or before them. -/
def number : Pattern :=
  firstOf
    [concat [run Char.isDigit, just '.', many1 (char Char.isDigit)],
     many1 (char Char.isDigit)]

/-- The unit behind a number: a name of plain letters, digits and underscores, or a percent sign.
The dash is no part of it, so that a difference of two lengths needs no blanks. -/
def unit : Pattern :=
  firstOf [concat [char isLetter, run fun c => isLetter c || c.isDigit], just '%']

/-- The rest of a block comment, behind its opening, through the first closing. -/
def commentBody : Pattern
  | [] => none
  | [_] => none
  | '*' :: '/' :: _ => some 2
  | _ :: c :: cs => (commentBody (c :: cs)).map (· + 1)

/-! ## Rules -/

/-- What a rule cuts off. -/
inductive Cut
  | token (kind : Kind)
  | trivia (kind : TriviaKind)
  deriving DecidableEq, Repr

/-- A rule of the lexer. -/
structure Rule where
  cut : Cut
  pattern : Pattern
  /-- A kind and its pattern, to which the rule yields where that pattern matches more. -/
  yieldsTo : Option (Kind × Pattern) := none

/-- A name behind an at sign. -/
def atName : Pattern := concat [just '@', name]

/-- The pattern of a kind of token. -/
def patternOf : Kind → Pattern
  | .uriString => concat [uriOpen, blanks, string, blanks, just ')']
  | .uriBare =>
    concat [uriOpen, blanks, many (firstOf [char isUriChar, escape]), blanks, just ')']
  | .string => string
  | .important => concat [just '!', blanks, anyCase "important".toList]
  | .extend => word ":extend(".toList
  | .atImport => word "@import".toList
  | .atMedia => word "@media".toList
  | .atPlugin => word "@plugin".toList
  | .atBraces => concat [word ['@', '\x7b'], name, just '\x7d']
  | .atName => atName
  | .function => concat [name, just '(']
  | .when => word "when".toList
  | .and => word "and".toList
  | .or => word "or".toList
  | .classOrId => concat [char fun c => c == '#' || c == '.', name]
  | .hash => concat [just '#', many1 nameChar]
  | .ident => name
  | .dimension => concat [number, unit]
  | .number => number
  | .leftBrace => just '\x7b'
  | .rightBrace => just '\x7d'
  | .leftParen => just '('
  | .rightParen => just ')'
  | .leftBracket => just '['
  | .rightBracket => just ']'
  | .semicolon => just ';'
  | .comma => just ','
  | .attributeMatch =>
    concat
      [optional (char fun c => c == '*' || c == '~' || c == '|' || c == '^' || c == '$'), just '=']
  | .colon => just ':'
  | .ampersand => just '&'
  | .greater => just '>'
  | .less => just '<'
  | .plus => just '+'
  | .minus => just '-'
  | .star => just '*'
  | .slash => concat [optional (just '.'), just '/']
  | .tilde => just '~'
  | .equals => just '='
  | .dot => just '.'

/-- The kind of name to which a keyword yields. -/
def longerName : Kind → Option Kind
  | .atImport | .atMedia | .atPlugin => some .atName
  | .when | .and | .or => some .ident
  | _ => none

/-- The pattern of a kind of trivia. -/
def triviaPattern : TriviaKind → Pattern
  | .blank => many1 (char isBlank)
  | .blockComment => concat [word ['/', '*'], commentBody]
  | .lineComment => concat [word ['/', '/'], run fun c => !isLineEnd c]

/-- The rule for a kind of token. -/
def Rule.ofKind (k : Kind) : Rule :=
  { cut := .token k, pattern := patternOf k,
    yieldsTo := (longerName k).map fun longer => (longer, patternOf longer) }

/-- The rule for a kind of trivia. -/
def Rule.ofTrivia (k : TriviaKind) : Rule := { cut := .trivia k, pattern := triviaPattern k }

/-- All rules, in the order in which they are tried: trivia, then the kinds of tokens as
declared. -/
def rules : List Rule :=
  [TriviaKind.blank, .blockComment, .lineComment].map Rule.ofTrivia ++ Kind.all.map Rule.ofKind

/-- What a rule cuts off the start of a text, and of how many characters.  An empty match is
none. -/
def Rule.cut? (r : Rule) (cs : List Char) : Option (Cut × Nat) :=
  match r.pattern cs with
  | none | some 0 => none
  | some n =>
    -- a keyword at the start of a longer name is no keyword
    match r.yieldsTo with
    | none => some (r.cut, n)
    | some (kind, longer) =>
      match longer cs with
      | none => some (r.cut, n)
      | some m => if m > n then some (.token kind, m) else some (r.cut, n)

/-- What is cut off the start of a text, by the first rule that matches. -/
def cut? (cs : List Char) : Option (Cut × Nat) := rules.findSome? (·.cut? cs)

/-! ## Pieces -/

/-- A piece of the text: what was cut off there, or `none` where nothing matched. -/
structure Piece where
  cut : Option Cut
  text : List Char
  deriving DecidableEq, Repr

/-- Puts a character at which nothing matched in front of the pieces behind it. -/
def skip (c : Char) : List Piece → List Piece
  | ⟨none, text⟩ :: ps => ⟨none, c :: text⟩ :: ps
  | ps => ⟨none, [c]⟩ :: ps

/-- The pieces of a text, from left to right. -/
def pieces : List Char → List Piece
  | [] => []
  | c :: cs =>
    match cut? (c :: cs) with
    | some (cut, n + 1) => ⟨some cut, c :: cs.take n⟩ :: pieces (cs.drop n)
    -- a rule never cuts off nothing, so that this is where no rule matches
    | _ => skip c (pieces cs)
termination_by cs => cs.length
decreasing_by
  · simp only [List.length_drop, List.length_cons]; omega
  · simp

theorem flatten_text_skip (c : Char) (ps : List Piece) :
    ((skip c ps).map Piece.text).flatten = c :: (ps.map Piece.text).flatten := by
  unfold skip
  split <;> simp

/-- The pieces of a text, side by side, are the text. -/
theorem flatten_text_pieces (cs : List Char) : ((pieces cs).map Piece.text).flatten = cs := by
  fun_induction pieces cs with
  | case1 => rfl
  | case2 c cs cut n _ ih => simp [ih, List.take_append_drop]
  | case3 c cs _ ih => rw [flatten_text_skip, ih]

end Lexer

/-! ## The lexed text -/

/-- A text cut into tokens, trivia and stray stretches, each list from left to right. -/
structure Lexing where
  tokens : List Token := []
  trivia : List Trivia := []
  strays : List Stray := []
  deriving DecidableEq, Repr

namespace Lexing

/-- Gives every piece its place, the first one starting at byte `start`. -/
def ofPieces (start : Nat) : List Lexer.Piece → Lexing
  | [] => {}
  | piece :: ps =>
    let stop := start + Text.width piece.text
    let rest := ofPieces stop ps
    match piece.cut with
    | some (.token kind) =>
      { rest with tokens := ⟨kind, start, stop, String.ofList piece.text⟩ :: rest.tokens }
    | some (.trivia kind) => { rest with trivia := ⟨kind, start, stop⟩ :: rest.trivia }
    | none => { rest with strays := ⟨start, stop, String.ofList piece.text⟩ :: rest.strays }

/-- Cuts a text into its pieces. -/
def ofText (source : String) : Lexing := ofPieces 0 (Lexer.pieces source.toList)

/-- The stretches of the text that are covered, as pairs of first and past-the-last byte. -/
def spans (l : Lexing) : List (Nat × Nat) :=
  l.tokens.map (fun t => (t.start, t.stop)) ++ l.trivia.map (fun t => (t.start, t.stop))
    ++ l.strays.map (fun s => (s.start, s.stop))

/-- The parts of `source` that are covered, from left to right and side by side. -/
def coveredText (l : Lexing) (source : String) : String :=
  let sorted := l.spans.mergeSort fun a b => a.1 < b.1 || (a.1 == b.1 && a.2 ≤ b.2)
  String.ofList (sorted.flatMap fun s => Text.slice source.toList s.1 s.2)

end Lexing

end LessCss
