import LessCss.Text.Word

/-!
# Holes in texts

A text may have holes: an at sign and, in braces, the name of a variable.  Such a name is made of
word characters and dashes; anything else in braces is plain text.
-/

namespace LessCss.Text

/-- A part of a text: a plain character, or a hole with the name in it and the byte at which it
starts. -/
inductive Part
  | plain (char : Char)
  | hole (name : List Char) (offset : Nat)
  deriving DecidableEq, Repr

/-- Whether a character can stand in the name of a hole. -/
def isHoleChar (c : Char) : Bool := isWordChar c || c == '-'

/-- The name in the hole at the start of a text, if there is one. -/
def holeName? : List Char → Option (List Char)
  | '@' :: '\x7b' :: cs =>
    match cs.takeWhile isHoleChar, cs.dropWhile isHoleChar with
    | c :: name, '\x7d' :: _ => some (c :: name)
    | _, _ => none
  | _ => none

/-- The parts of a text that starts at byte `offset`; the first `ahead` characters belong to a hole
that has been taken already. -/
def partsFrom (offset ahead : Nat) : List Char → List Part
  | [] => []
  | c :: cs =>
    match ahead with
    | k + 1 => partsFrom (offset + c.utf8Size) k cs
    | 0 =>
      match holeName? (c :: cs) with
      | some name => .hole name offset :: partsFrom (offset + c.utf8Size) (name.length + 2) cs
      | none => .plain c :: partsFrom (offset + c.utf8Size) 0 cs

/-- The parts of a text. -/
def parts (text : String) : List Part := partsFrom 0 0 text.toList

end LessCss.Text
