import LessCss.Grammar.Phrase
import LessCss.Token
import LessCss.Token.KindSet

/-!
# Mismatches

What a parser says where a phrase does not fit.
-/

namespace LessCss

/-- A phrase wanted some kinds of token and found another token, or the end of the text. -/
structure Mismatch where
  phrase : Phrase
  wanted : KindSet
  found : Option Token
  deriving Repr

namespace Mismatch

/-- Where the mismatch is, in a text of `length` bytes. -/
def offset (m : Mismatch) (length : Nat) : Nat := (m.found.map Token.start).getD length

/-- What a mismatch is about, without its place. -/
def complaint (m : Mismatch) : String :=
  let wanted := " | ".intercalate (m.wanted.toList.map Kind.name)
  match m.found with
  | some t => m.phrase.title ++ " 期待 " ++ wanted ++ "，却得到 '" ++ t.text ++ "'"
  | none => m.phrase.title ++ " 期待 " ++ wanted ++ "，却到达输入末尾"

/-- The report of a mismatch in a text of `length` bytes. -/
def message (m : Mismatch) (length : Nat) : String :=
  m.complaint ++ " (位置 " ++ toString (m.offset length) ++ ")"

end Mismatch

end LessCss
