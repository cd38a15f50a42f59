import LessCss.Grammar
import LessCss.Parser.Mismatch
import LessCss.Tree

/-!
# Parsers

A parser walks along a row of tokens.  It either gives a value or a *mismatch*, which says what was
wanted and what was found; in both cases it also says where it stopped, because a failed phrase
keeps what it took: only `attempt` goes back.

A *recovering* parser in addition lists the mismatches that it noted and recovered from on its way.
-/

namespace LessCss

/-- A place between two tokens. -/
structure Cursor where
  /-- The token just before the place. -/
  previous : Option Token
  /-- The tokens behind the place. -/
  rest : List Token
  deriving Repr

namespace Cursor

/-- The next token. -/
def next? (c : Cursor) : Option Token := c.rest.head?

/-- The kind of the next token. -/
def kind? (c : Cursor) : Option Kind := c.next?.map Token.kind

/-- The kind of the token after the next. -/
def secondKind? (c : Cursor) : Option Kind := c.rest[1]?.map Token.kind

/-- Whether the next token is of kind `k`. -/
def isAt (c : Cursor) (k : Kind) : Bool := c.kind? == some k

/-- Whether the next token is of a kind in `s`. -/
def isAtAny (c : Cursor) (s : KindSet) : Bool := c.kind?.any s.contains

/-- Whether the token before the place ends where the next one starts. -/
def isTight (c : Cursor) : Bool :=
  match c.previous, c.next? with
  | some p, some n => n.start == p.stop
  | _, _ => false

/-- Whether something stands between the token before the place and the next one. -/
def hasGap (c : Cursor) : Bool :=
  match c.previous, c.next? with
  | some p, some n => n.start > p.stop
  | _, _ => false

end Cursor

/-- What came of parsing a phrase, and the place where parsing stopped. -/
inductive Outcome (α : Type)
  | found (value : α) (next : Cursor)
  | failed (mismatch : Mismatch) (next : Cursor)

/-- A way to parse a phrase. -/
def Parser (α : Type) := Cursor → Outcome α

namespace Parser

/-- The value is there already. -/
def give {α : Type} (a : α) : Parser α := fun c => .found a c

/-- One parser, and then one that may depend on what the first found. -/
def andThen {α β : Type} (p : Parser α) (f : α → Parser β) : Parser β := fun c =>
  match p c with
  | .found a next => f a next
  | .failed m next => .failed m next

instance : Monad Parser where
  pure := give
  bind := andThen

/-- The present place. -/
def here : Parser Cursor := fun c => .found c c

/-- Fails at the present place. -/
def fail {α : Type} (phrase : Phrase) (wanted : KindSet) : Parser α :=
  fun c => .failed ⟨phrase, wanted, c.next?⟩ c

/-- Takes the next token, which must be of a kind in `wanted`. -/
def take (phrase : Phrase) (wanted : KindSet) : Parser Tree := fun c =>
  match c.rest with
  | t :: ts =>
    if wanted.contains t.kind then .found (.leaf t) ⟨some t, ts⟩
    else .failed ⟨phrase, wanted, some t⟩ c
  | [] => .failed ⟨phrase, wanted, none⟩ c

/-- Takes the next token, which must be of kind `k`. -/
def expect (phrase : Phrase) (k : Kind) : Parser Tree := take phrase (.ofList [k])

/-- Takes the next token if it is of kind `k`. -/
def accept (phrase : Phrase) (k : Kind) : Parser (List Tree) := do
  if (← here).isAt k then return [← expect phrase k] else return []

/-- Parses a phrase, or stays in place if that fails. -/
def attempt {α : Type} (p : Parser α) : Parser (Option α) := fun c =>
  match p c with
  | .found a next => .found (some a) next
  | .failed _ _ => .found none c

/-- Parses items one after the other while `more` holds, at most `bound` of them. -/
def repeatWithin (more : Cursor → Bool) (item : Parser (List Tree)) : Nat → Parser (List Tree)
  | 0 => give []
  | bound + 1 => do
    if more (← here) then
      let ts ← item
      return ts ++ (← repeatWithin more item bound)
    else return []

/-- Parses items one after the other while `more` holds.  Every item takes a token, so that there
are no more items than tokens left. -/
def repeatWhile (more : Cursor → Bool) (item : Parser (List Tree)) : Parser (List Tree) :=
  fun c => repeatWithin more item c.rest.length c

/-- A phrase with the parts that a parser finds. -/
def node (phrase : Phrase) (p : Parser (List Tree)) : Parser Tree := do
  return .node phrase (← p)

/-- The kinds with which a phrase may start. -/
def first (p : Phrase) : KindSet := p.starts

/-- Whether the next token may start a phrase. -/
def startsHere (c : Cursor) (p : Phrase) : Bool := c.isAtAny (first p)

/-- Takes tokens through the parenthesis that closes the one already open; `depth` further ones are
open. -/
def takeBalanced (phrase : Phrase) (depth : Nat) (previous : Option Token) :
    List Token → Outcome (List Tree)
  | [] => .failed ⟨phrase, .ofList [.rightParen], none⟩ ⟨previous, []⟩
  | t :: ts =>
    let onward (depth : Nat) : Outcome (List Tree) :=
      match takeBalanced phrase depth (some t) ts with
      | .found rest next => .found (.leaf t :: rest) next
      | .failed m next => .failed m next
    match t.kind with
    | .leftParen | .function | .extend => onward (depth + 1)
    | .rightParen =>
      match depth with
      | 0 => .found [.leaf t] ⟨some t, ts⟩
      | d + 1 => onward d
    | .leftBrace | .rightBrace | .semicolon =>
      .failed ⟨phrase, .ofList [.rightParen], some t⟩ ⟨previous, t :: ts⟩
    | _ => onward depth

/-- Takes tokens as they are, through the parenthesis that closes the one already open. -/
def balanced (phrase : Phrase) : Parser (List Tree) := fun c =>
  takeBalanced phrase 0 c.previous c.rest

end Parser

/-! ## Recovery -/

/-- What came of a phrase, and the mismatches noted within it. -/
structure Recovered (α : Type) where
  noted : List Mismatch
  outcome : Outcome α

/-- A way to parse a phrase with statements inside, where mismatches are noted and parsing goes
on. -/
def Recovering (α : Type) := Cursor → Recovered α

namespace Recovering

/-- A parser that notes nothing. -/
def ofParser {α : Type} (p : Parser α) : Recovering α := fun c => ⟨[], p c⟩

/-- One parser, and then one that may depend on what the first found. -/
def andThen {α β : Type} (p : Recovering α) (f : α → Recovering β) : Recovering β := fun c =>
  match p c with
  | ⟨noted, .found a next⟩ =>
    let r := f a next
    ⟨noted ++ r.noted, r.outcome⟩
  | ⟨noted, .failed m next⟩ => ⟨noted, .failed m next⟩

instance : Monad Recovering where
  pure a := ofParser (Parser.give a)
  bind := andThen

instance : MonadLift Parser Recovering where
  monadLift := ofParser

end Recovering

end LessCss
