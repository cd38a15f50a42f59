import LessCss.Token.Kind

/-!
# Tokens and what stands between them

The lexer cuts a text into *pieces*: tokens, trivia (blanks and comments) and stretches that are
neither. Each carries its kind, its text and the bytes that it covers.
-/

namespace LessCss

/-- A token: its kind, the bytes that it covers, and their text. -/
structure Token where
  kind : Kind
  start : Nat
  stop : Nat
  text : String
  deriving DecidableEq, Repr, Inhabited

/-- What may stand between tokens without being part of the grammar. -/
inductive TriviaKind
  | blank
  | blockComment
  | lineComment
  deriving DecidableEq, Repr

/-- The name of a kind of trivia in listings. -/
def TriviaKind.name : TriviaKind → String
  | blank => "Whitespace"
  | blockComment => "BlockComment"
  | lineComment => "LineComment"

/-- A stretch of blanks, or one comment. -/
structure Trivia where
  kind : TriviaKind
  start : Nat
  stop : Nat
  deriving DecidableEq, Repr

/-- A stretch of text at no character of which a token or trivia begins. -/
structure Stray where
  start : Nat
  stop : Nat
  text : String
  deriving DecidableEq, Repr

/-- The complaint about a stray stretch, without its place. -/
def Stray.complaint (s : Stray) : String := "无法识别的字符序列 '" ++ s.text ++ "'"

/-- The complaint about a stray stretch. -/
def Stray.message (s : Stray) : String :=
  s.complaint ++ " (位置 " ++ toString s.start ++ ")"

end LessCss
