import LessCss.Text.Blank

/-!
# Collapsing blanks

Every run of blanks becomes one space, and blanks at both ends go.  Between two copies of a quote
all stays as it is; a quote that is not closed reaches to the end.
-/

namespace LessCss.Text

/-- Collapses runs of blanks.  `quote` is the quote that is open, if one is, and `afterSpace` tells
whether a space for the present run has been written. -/
def collapseRuns (quote : Option Char) (afterSpace : Bool) : List Char → List Char
  | [] => []
  | c :: cs =>
    match quote with
    | some q => c :: collapseRuns (if c == q then none else some q) false cs
    | none =>
      if isBlank c then
        if afterSpace then collapseRuns none true cs else ' ' :: collapseRuns none true cs
      else c :: collapseRuns (if c == '\x22' || c == '\x27' then some c else none) false cs

/-- A text with every run of blanks outside of quotes as one space, and none at the ends. -/
def collapse (s : String) : String :=
  String.ofList (trimEnd (trimStart (collapseRuns none false s.toList)))

end LessCss.Text
