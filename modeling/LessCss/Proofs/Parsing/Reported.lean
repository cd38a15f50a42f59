import LessCss.Proofs.Parsing.Advancing
import LessCss.Proofs.Parsing.Spacing

/-!
# Mismatches are reported in the order of the text

A mismatch may be noted inside of a block long before the statement around the block fails as well,
and phrases that are only tried fail without being noted at all.  Still the mismatches of a text are
listed from its start to its end (`Parse.mismatches_in_order`), as parsers go forward: the tokens of
a text start one behind the other, and so a later place has no smaller offset.  The first mismatch,
which is the one that is reported, is therefore the leftmost.
-/

namespace LessCss

/-- The offset of the next token, or of the end, in a text of `length` bytes. -/
def Cursor.offset (c : Cursor) (length : Nat) : Nat := (c.next?.map Token.start).getD length

/-- A mismatch about the next token is reported where this starts. -/
theorem Mismatch.IsAt.offset_eq {m : Mismatch} {c : Cursor} (h : m.IsAt c) (length : Nat) :
    m.offset length = c.offset length := by
  rw [Mismatch.offset, h, Cursor.offset]

/-- Tokens that start one behind the other in a text of `length` bytes. -/
structure Ordered (length : Nat) (tokens : List Token) : Prop where
  starts : tokens.Pairwise fun t u => t.start ≤ u.start
  bounded : ∀ t ∈ tokens, t.start ≤ length

namespace Ordered

variable {length : Nat} {tokens : List Token} {c d : Cursor}

/-- Tokens at the end of an ordered row are ordered. -/
theorem of_suffix {ts : List Token} (h : Ordered length tokens) (hts : ts <:+ tokens) :
    Ordered length ts :=
  ⟨h.starts.sublist hts.sublist, fun t ht => h.bounded t (hts.subset ht)⟩

/-- A later place has no smaller offset. -/
theorem offset_le (h : Ordered length c.rest) (hcd : c.Before d) :
    c.offset length ≤ d.offset length := by
  obtain ⟨taken, hrest, _⟩ := hcd
  obtain ⟨hstarts, hbounded⟩ := h
  unfold Cursor.offset Cursor.next?
  rw [hrest] at hstarts hbounded ⊢
  cases taken with
  | nil => exact Nat.le_refl _
  | cons t taken =>
    cases hd : d.rest with
    | nil => exact hbounded t List.mem_cons_self
    | cons u us =>
      rw [hd] at hstarts
      exact List.rel_of_pairwise_cons hstarts (by simp)

/-- Mismatches that were noted on the way from one place to others have offsets one behind the
other, and none lies before the start. -/
theorem offsets_of_noted {ms : List Mismatch} (h : Ordered length c.rest) (hms : Noted c ms d) :
    (∀ m ∈ ms, c.offset length ≤ m.offset length) ∧
      (ms.map (·.offset length)).Pairwise (· ≤ ·) := by
  induction hms with
  | nil hcd => exact ⟨fun m hm => absurd hm List.not_mem_nil, List.Pairwise.nil⟩
  | cons hplace hm hrest ih =>
    obtain ⟨hbehind, hpairwise⟩ := ih (h.of_suffix hplace.suffix)
    have hle := h.offset_le hplace
    refine ⟨List.forall_mem_cons.mpr ⟨?_, fun m hm => hle.trans (hbehind m hm)⟩, ?_⟩
    · rw [hm.offset_eq]
      exact hle
    · rw [List.map_cons, List.pairwise_cons, hm.offset_eq]
      exact ⟨List.forall_mem_map.mpr hbehind, hpairwise⟩

end Ordered

namespace Lexing

/-- The tokens of a text start one behind the other, before its end. -/
theorem ordered_tokens (source : String) : Ordered source.utf8ByteSize (ofText source).tokens := by
  refine ⟨(pairwise_tokens source).imp_of_mem fun {t u} ht _ hstop => ?_, fun t ht => ?_⟩
  · exact (Nat.le_of_lt (start_lt_stop ht)).trans hstop
  · have hspan : (t.start, t.stop) ∈ (ofText source).spans := by
      simp only [spans, List.mem_append, List.mem_map]
      exact .inl (.inl ⟨t, ht, rfl⟩)
    have hcovered := ((partitions_ofText source).covering t.start).mpr
        ⟨_, hspan, Nat.le_refl _, start_lt_stop ht⟩
    exact Nat.le_of_lt hcovered

end Lexing

namespace Parse

open LessCss.Parser

/-- Everything that is noted against a row of tokens, in the order of the row. -/
theorem ofTokens_noted (tokens : List Token) :
    Noted ⟨none, tokens⟩ (ofTokens tokens).noted (ofTokens tokens).next :=
  bodyWithin_advances (statement_advances (blockWithin_advances _) false) false _ _

/-- Without strays, the first error is the first mismatch, at its place. -/
theorem firstError?_mismatch {p : Parse} {m : Mismatch} {ms : List Mismatch}
    (hstrays : p.strays = []) (hmismatches : p.mismatches = m :: ms) :
    p.firstError? = some (.mismatch m (m.offset p.length)) := by
  rw [firstError?, hstrays, hmismatches]

/-- The offsets of the mismatches of a text, in the order in which they are reported. -/
def offsets (p : Parse) : List Nat := p.mismatches.map (·.offset p.length)

/-- **Mismatches are reported in the order of the text.**  The offsets of the mismatches of a text
do not decrease.  Each is the start of a token or the length of the text.  If the whole text is made
of tokens, then the error of a text with mismatches is one of them, and none has a smaller
offset. -/
theorem mismatches_in_order (source : String) :
    (ofText source).offsets.Pairwise (· ≤ ·) ∧
      (∀ o ∈ (ofText source).offsets,
        (∃ t ∈ (Lexing.ofText source).tokens, o = t.start) ∨ o = source.utf8ByteSize) ∧
      ((ofText source).strays = [] → (ofText source).offsets ≠ [] →
        ∃ m, ∃ o ∈ (ofText source).offsets, Ruleset.ofText source = .error (.mismatch m o) ∧
          ∀ o' ∈ (ofText source).offsets, o ≤ o') := by
  have hnoted : Noted _ (ofText source).mismatches _ := ofTokens_noted (Lexing.ofText source).tokens
  have hpairwise : (ofText source).offsets.Pairwise (· ≤ ·) :=
    ((Lexing.ordered_tokens source).offsets_of_noted hnoted).2
  refine ⟨hpairwise, fun o ho => ?_, fun hstrays hsome => ?_⟩
  · obtain ⟨m, hm, rfl⟩ := List.mem_map.mp ho
    rw [Mismatch.offset]
    cases hfound : m.found with
    | none => exact .inr rfl
    | some t => exact .inl ⟨t, found_mem_tokens hm hfound, rfl⟩
  · cases hmismatches : (ofText source).mismatches with
    | nil => exact absurd (congrArg (List.map _) hmismatches) hsome
    | cons m ms =>
      have hoffsets : (ofText source).offsets =
          m.offset source.utf8ByteSize :: ms.map (·.offset source.utf8ByteSize) :=
            congrArg (List.map _) hmismatches
      refine ⟨m, m.offset source.utf8ByteSize, ?_, ?_, fun o ho => ?_⟩
      · rw [hoffsets]
        exact List.mem_cons_self
      · simp only [Ruleset.ofText, firstError?_mismatch hstrays hmismatches]
        rfl
      · rw [hoffsets] at hpairwise ho
        rcases List.mem_cons.mp ho with rfl | ho
        · exact Nat.le_refl _
        · exact List.rel_of_pairwise_cons hpairwise ho

/-- A block in which one statement does not fit, in a text that breaks off before the block is
closed. -/
theorem mismatches_in_order_unclosed :
    (ofText "a \x7b b c; d: 1;").strays = [] ∧
      (ofText "a \x7b b c; d: 1;").offsets = [7, 14] ∧
      ∃ m, Ruleset.ofText "a \x7b b c; d: 1;" = .error (.mismatch m 7) := by
  have hstrays : (ofText "a \x7b b c; d: 1;").strays = [] := by decide +kernel
  have hoffsets : (ofText "a \x7b b c; d: 1;").offsets = [7, 14] := by decide +kernel
  obtain ⟨m, o, hmem, herror, hleast⟩ :=
    (mismatches_in_order "a \x7b b c; d: 1;").2.2 hstrays (by rw [hoffsets]; decide)
  rw [hoffsets] at hmem hleast
  have hle : o ≤ 7 := hleast 7 (by decide)
  obtain rfl : o = 7 := by
    simp only [List.mem_cons, List.not_mem_nil, or_false] at hmem
    omega
  exact ⟨hstrays, hoffsets, m, herror⟩

end Parse

end LessCss
