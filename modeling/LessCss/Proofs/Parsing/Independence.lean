import LessCss.Proofs.Lexing.Parts
import LessCss.Proofs.Parsing.Rows

/-!
# Statements do not depend on each other

A text that is cut between two of its pieces has the tokens of the first part and then those of the
second, further on by the length of the first (`Lexing.tokens_append`).  If nothing is noted against
the first part, its statements are the first ones of the whole text, and what follows is parsed as
if it stood alone (`Parse.ofText_append`).
-/

namespace LessCss

/-- A tree further on in the text. -/
def Tree.shift (n : Nat) : Tree → Tree := Tree.map (Token.shift n)

/-- The tokens of a text, further on in another one. -/
def Transfer.shift (n : Nat) : Transfer := ⟨fun t => t.start + n, fun t => t.stop + n, []⟩

/-! ## Cut texts -/

namespace Lexing

open Lexer Text

/-- The tokens of a text that is cut are those of its parts. -/
theorem tokens_append {source rest : String}
    (h : (ofText (source ++ rest)).IsCut source.utf8ByteSize) :
    (ofText (source ++ rest)).tokens =
      (ofText source).tokens ++ (ofText rest).tokens.map (Token.shift source.utf8ByteSize) := by
  obtain ⟨ps, qs, hpieces, hwidth⟩ := exists_pieces_of_isCut h
  rw [String.toList_append] at hpieces
  have htext : textOf ps = source.toList := by
    have hwhole : textOf ps ++ textOf qs = source.toList ++ rest.toList := by
      rw [← textOf_append, ← hpieces, textOf_pieces]
    exact eq_of_width_eq hwhole (hwidth.trans (width_toList source).symm)
  obtain ⟨hps, hqs⟩ := pieces_append hpieces htext
  have hshift := ofPieces_shift source.utf8ByteSize qs 0
  rw [Nat.zero_add] at hshift
  rw [ofText, ofText, ofText, String.toList_append, hpieces, hps, hqs, ofPieces_append, hwidth,
    Nat.zero_add, hshift]
  rfl

end Lexing

/-! ## Cut stylesheets -/

/-- What is reported of a mismatch in a text of `length` bytes: the complaint, the kinds of token
that were wanted, and the place. -/
def Mismatch.report (m : Mismatch) (length : Nat) : String × KindSet × Nat :=
  (m.complaint, m.wanted, m.offset length)

/-- All reports against a text. -/
def Parse.reports (p : Parse) : List (String × KindSet × Nat) :=
  p.mismatches.map (·.report p.length)

/-- A mismatch further on in a text is reported with the same words, further on. -/
theorem Transfer.report_shift (n length : Nat) (m : Mismatch) :
    ((Transfer.shift n).mismatch m).report (n + length) =
      ((m.report length).1, (m.report length).2.1, (m.report length).2.2 + n) := by
  have hoffset : ((Transfer.shift n).mismatch m).offset (n + length) = m.offset length + n := by
    obtain ⟨phrase, wanted, found⟩ := m
    cases found with
    | none => exact Nat.add_comm _ _
    | some t => rfl
  rw [Mismatch.report, hoffset, complaint_mismatch]
  rfl

namespace Parse

open LessCss.Parser

/-- Tokens against which nothing is noted, with others further on: the statements of both, and what
is noted against the others. -/
theorem ofTokens_append_shift {ts : List Token} (n : Nat) (us : List Token)
    (hnoted : (ofTokens ts).noted = []) :
    (ofTokens (ts ++ us.map (Token.shift n))).statements =
        (ofTokens ts).statements ++ (ofTokens us).statements.map (Tree.shift n) ∧
      (ofTokens (ts ++ us.map (Token.shift n))).noted =
        (ofTokens us).noted.map (Transfer.shift n).mismatch := by
  obtain ⟨rounds, previous, hrounds, hwhole⟩ := ofTokens_append (us.map (Token.shift n)) hnoted
  rw [List.length_map] at hrounds
  have hspaced : us.IsChain (Transfer.shift n).Spaced := by
    refine (List.pairwise_of_forall fun t u => ?_).isChain
    simp only [Transfer.Spaced, Transfer.shift]
    omega
  have hbound : us.length ≤ (ts ++ us.map (Token.shift n)).length := by simp
  have hrest := ofTokens_mirrors (x := Transfer.shift n) rfl hspaced hbound hrounds previous
  rw [hwhole]
  exact ⟨congrArg _ hrest.statements, hrest.noted⟩

/-- **Statements are parsed independently of each other.**  Let a text be cut where one of its
tokens, pieces of trivia or stray stretches starts or ends, and let nothing be noted against the
first part.  Then the statements of the text are those of the first part and then those of the
second, and what is reported against the text is what is reported against the second part, both
further on by the length of the first. -/
theorem ofText_append (source rest : String)
    (hcut : (Lexing.ofText (source ++ rest)).IsCut source.utf8ByteSize)
    (hnone : (ofText source).mismatches = []) :
    (ofText (source ++ rest)).tree.children = (ofText source).tree.children ++
        (ofText rest).tree.children.map (Tree.shift source.utf8ByteSize) ∧
      (ofText (source ++ rest)).reports = (ofText rest).reports.map
        fun (complaint, wanted, offset) =>
        (complaint, wanted, offset + source.utf8ByteSize) := by
  obtain ⟨hstatements, hnoted⟩ :=
    ofTokens_append_shift source.utf8ByteSize (Lexing.ofText rest).tokens hnone
  rw [← Lexing.tokens_append hcut] at hstatements hnoted
  refine ⟨hstatements, ?_⟩
  have hmismatches : (ofText (source ++ rest)).mismatches = _ := hnoted
  have hlength : (ofText (source ++ rest)).length = source.utf8ByteSize + rest.utf8ByteSize :=
    String.utf8ByteSize_append
  rw [reports, hmismatches, hlength, reports, List.map_map, List.map_map]
  exact List.map_congr_left fun m _ => Transfer.report_shift _ _ m

/-- A text cut behind a comment, with a closing brace too many and a declaration broken off in the
rest. -/
theorem ofText_append_malformed :
    (Lexing.ofText ("@é:1 -2;/**/" ++ "\x7d c \x7b d; e:1 \x7d")).IsCut
      "@é:1 -2;/**/".utf8ByteSize ∧
      (ofText "@é:1 -2;/**/").mismatches.isEmpty = true ∧
      (ofText "\x7d c \x7b d; e:1 \x7d").mismatches.length = 2 ∧
      (ofText ("@é:1 -2;/**/" ++ "\x7d c \x7b d; e:1 \x7d")).tree.children =
        (ofText "@é:1 -2;/**/").tree.children ++
          (ofText "\x7d c \x7b d; e:1 \x7d").tree.children.map
            (Tree.shift "@é:1 -2;/**/".utf8ByteSize) ∧
      (ofText ("@é:1 -2;/**/" ++ "\x7d c \x7b d; e:1 \x7d")).reports =
        (ofText "\x7d c \x7b d; e:1 \x7d").reports.map fun (complaint, wanted, offset) =>
          (complaint, wanted, offset + "@é:1 -2;/**/".utf8ByteSize) := by
  have hcut :
      (Lexing.ofText ("@é:1 -2;/**/" ++ "\x7d c \x7b d; e:1 \x7d")).IsCut
        "@é:1 -2;/**/".utf8ByteSize :=
    ⟨(9, 13), by decide +kernel, .inr (by decide +kernel)⟩
  have hnone : (ofText "@é:1 -2;/**/").mismatches.isEmpty = true := by decide +kernel
  exact ⟨hcut, hnone, by decide +kernel, ofText_append _ _ hcut (List.isEmpty_iff.mp hnone)⟩

end Parse

end LessCss
