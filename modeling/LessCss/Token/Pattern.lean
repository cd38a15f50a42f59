/-!
# Patterns of the lexer

A pattern looks at the start of a text and says how many characters it matches there, if it matches.
Repetition is greedy and never gives back: for the patterns of this project a shorter repetition
could not help what follows it, because no pattern can go on with a character that the repetition
takes.
-/

namespace LessCss

/-- How many characters match at the start of a text, or `none` if there is no match. -/
abbrev Pattern := List Char → Option Nat

namespace Pattern

/-- One character of a class. -/
def char (p : Char → Bool) : Pattern
  | [] => none
  | c :: _ => if p c then some 1 else none

/-- One given character. -/
def just (c : Char) : Pattern := char (· == c)

/-- A given word. -/
def word (w : List Char) : Pattern := fun cs => if w.isPrefixOf cs then some w.length else none

/-- A given word in letters of either case; the word itself is in lower case. -/
def anyCase (w : List Char) : Pattern := fun cs =>
  if w.isPrefixOf (cs.map Char.toLower) then some w.length else none

/-- The longest run of characters of a class, which may be empty. -/
def run (p : Char → Bool) : Pattern := fun cs => some (cs.takeWhile p).length

/-- Between one and `n` characters of a class, as many as there are. -/
def runUpTo (n : Nat) (p : Char → Bool) : Pattern := fun cs =>
  match ((cs.take n).takeWhile p).length with
  | 0 => none
  | k + 1 => some (k + 1)

/-- One pattern after the other. -/
def seq (p q : Pattern) : Pattern := fun cs =>
  match p cs with
  | none => none
  | some n =>
    match q (cs.drop n) with
    | none => none
    | some m => some (n + m)

/-- The patterns of a list, one after the other. -/
def concat : List Pattern → Pattern
  | [] => fun _ => some 0
  | [p] => p
  | p :: q :: ps => seq p (concat (q :: ps))

/-- The first pattern of a list that matches. -/
def firstOf : List Pattern → Pattern
  | [] => fun _ => none
  | p :: ps => fun cs => (p cs).or (firstOf ps cs)

/-- The pattern, or nothing if it does not match. -/
def optional (p : Pattern) : Pattern := fun cs => some ((p cs).getD 0)

/-- Walks through a text that is a repetition of `p`, with `ahead` characters still to go in the
match that is under way, and counts the characters. -/
def countRepeats (p : Pattern) : Nat → List Char → Nat
  | _, [] => 0
  | ahead + 1, _ :: cs => countRepeats p ahead cs + 1
  | 0, c :: cs =>
    match p (c :: cs) with
    | some (n + 1) => countRepeats p n cs + 1
    | _ => 0

/-- The pattern as often as it matches, perhaps never. -/
def many (p : Pattern) : Pattern := fun cs => some (countRepeats p 0 cs)

/-- The pattern at least once, and then as often as it matches. -/
def many1 (p : Pattern) : Pattern := seq p (many p)

end Pattern

end LessCss
