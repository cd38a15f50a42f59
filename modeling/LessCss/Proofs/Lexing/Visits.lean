import LessCss.Proofs.Lexing.Ending
import LessCss.Proofs.Lexing.Parts

/-!
# Where the lexer stands

The lexer goes through a text from left to right.  It stands at the start first, then behind
whatever it cuts off there, or behind one character if it cuts off nothing (`Lexer.Visits`).  What
it cuts off where it stands is a token or a piece of trivia, and there are no others
(`Lexing.mem_tokens_ofText_iff`, `Lexing.mem_trivia_ofText_iff`): what a lexed text is like is a
question of `Lexer.cut?` alone.
-/

namespace LessCss

open Text

namespace Lexer

variable {cs rest : List Char} {x : Cut} {n : Nat}

/-- On its way through a text the lexer comes to stand before `rest`. -/
inductive Visits : List Char → List Char → Prop
  | start (cs : List Char) : Visits cs cs
  | behind {cs rest : List Char} {x : Cut} {n : Nat} (hcut : cut? cs = some (x, n))
    (h : Visits (cs.drop n) rest) :
    Visits cs rest
  | stray {c : Char} {cs rest : List Char} (hcut : cut? (c :: cs) = none) (h : Visits cs rest) :
    Visits (c :: cs) rest

/-- Of some pieces, one with the text `text` was cut off as `x` behind the text `before`. -/
def IsPiece (ps : List Piece) (x : Cut) (before text : List Char) : Prop :=
  ∃ pre post, ps = pre ++ ⟨some x, text⟩ :: post ∧ before = textOf pre

/-- What is said of a later piece and the offset where it starts holds with one more piece in
front. -/
theorem exists_isPiece_cons {P : Nat → List Char → Prop} {p : Piece} {ps : List Piece} {start : Nat}
    (h : ∃ before text, IsPiece ps x before text ∧ P (start + width p.text + width before) text) :
    ∃ before text, IsPiece (p :: ps) x before text ∧ P (start + width before) text := by
  obtain ⟨_, text, ⟨pre, post, rfl, rfl⟩, hP⟩ := h
  refine ⟨_, text, ⟨p :: pre, post, rfl, rfl⟩, ?_⟩
  rwa [textOf_cons, width_append, ← Nat.add_assoc]

/-- What is cut off first is the first piece. -/
theorem pieces_eq_cons (hcut : cut? cs = some (x, n)) :
    pieces cs = ⟨some x, cs.take n⟩ :: pieces (cs.drop n) := by
  have hpos := cut?_pos hcut
  have hle := le_of_cut? hcut
  obtain ⟨n, rfl⟩ : ∃ n', n = n' + 1 := ⟨n - 1, by omega⟩
  cases cs with
  | nil => exact absurd hle (Nat.not_succ_le_zero n)
  | cons c cs => exact pieces_of_cut? hcut

/-- A stray character joins the stretch before a piece, and what is behind that stays as it is. -/
theorem skip_append {c : Char} {p : Piece} (hp : p.cut ≠ none) (ps qs : List Piece) :
    skip c (ps ++ p :: qs) = skip c ps ++ p :: qs := by
  cases ps with
  | nil =>
    obtain ⟨_ | cut, text⟩ := p
    · exact absurd rfl hp
    · rfl
  | cons q ps =>
    obtain ⟨_ | cut, text⟩ := q
    all_goals rfl

/-- The pieces of a text go on, where the lexer stands and cuts something off, with the pieces of
the rest. -/
theorem Visits.exists_pieces (h : Visits cs rest) (hcut : cut? rest = some (x, n)) :
    ∃ ps, pieces cs = ps ++ pieces rest := by
  induction h with
  | start cs => exact ⟨[], rfl⟩
  | behind hfirst _ ih =>
    obtain ⟨ps, hps⟩ := ih hcut
    exact ⟨_ :: ps, by rw [pieces_eq_cons hfirst, hps, List.cons_append]⟩
  | @stray c cs rest hnone _ ih =>
    obtain ⟨ps, hps⟩ := ih hcut
    have hp : (⟨some x, rest.take n⟩ : Piece).cut ≠ none := nofun
    refine ⟨skip c ps, ?_⟩
    rw [pieces_of_no_cut hnone, hps, pieces_eq_cons hcut, skip_append hp]

/-- The lexer stands wherever it has cut something off. -/
theorem visits_of_pieces {pre post : List Piece} {text : List Char}
    (h : pieces cs = pre ++ ⟨some x, text⟩ :: post) :
    Visits cs (text ++ textOf post) := by
  fun_induction pieces cs generalizing pre with
  | case1 => simp at h
  | case2 c cs cut n hcut ih =>
    cases pre with
    | nil =>
      have htext := textOf_pieces (c :: cs)
      rw [pieces_of_cut? hcut, h] at htext
      rw [← textOf_cons ⟨some x, text⟩, ← List.nil_append (_ :: post), htext]
      exact .start _
    | cons p pre => exact .behind hcut (ih (List.cons.inj h).2)
  | case3 c cs hnone ih =>
    have hcut : cut? (c :: cs) = none := by
      by_contra hsome
      obtain ⟨⟨y, m⟩, hy⟩ := Option.ne_none_iff_exists'.mp hsome
      obtain ⟨m, rfl⟩ : ∃ m', m = m' + 1 := ⟨m - 1, by have := cut?_pos hy; omega⟩
      exact hnone y m hy
    refine .stray hcut ?_
    unfold skip at h
    split at h
    · rename_i stretch ps hps
      rcases List.cons_eq_append_iff.mp h with ⟨rfl, hp⟩ | ⟨pre, rfl, rfl⟩
      · cases (List.cons.inj hp).1
      · have hps : pieces cs = (⟨none, stretch⟩ :: pre) ++ ⟨some x, text⟩ :: post := hps
        exact ih hps
    · rcases List.cons_eq_append_iff.mp h with ⟨rfl, hp⟩ | ⟨pre, rfl, hps⟩
      · cases (List.cons.inj hp).1
      · exact ih hps

/-- **The pieces of a text are what is cut off where the lexer stands.** -/
theorem isPiece_pieces_iff {before text : List Char} : IsPiece (pieces cs) x before text ↔
    ∃ rest n, cs = before ++ rest ∧ Visits cs rest ∧ cut? rest = some (x, n) ∧
    text = rest.take n := by
  constructor
  · rintro ⟨pre, post, hps, rfl⟩
    have hcs : cs = textOf pre ++ (text ++ textOf post) := by
      rw [← textOf_pieces cs, hps, textOf_append, textOf_cons]
    have hrest := (pieces_append (hcs ▸ hps) rfl).2
    exact ⟨_, _, hcs, visits_of_pieces hps, cut?_of_pieces hrest rfl, List.take_left.symm⟩
  · rintro ⟨rest, n, hcs, hvisits, hcut, rfl⟩
    obtain ⟨ps, hps⟩ := hvisits.exists_pieces hcut
    refine ⟨ps, pieces (rest.drop n), by rw [hps, pieces_eq_cons hcut], ?_⟩
    have htext : before ++ rest = textOf ps ++ rest := by
      rw [← hcs, ← textOf_pieces cs, hps, textOf_append, textOf_pieces]
    exact List.append_cancel_right htext

/-- The pieces that are cut off are those that the lexer cuts off where it comes to stand. -/
theorem exists_isPiece_pieces_iff {P : List Char → List Char → Prop} :
    (∃ before text, IsPiece (pieces cs) x before text ∧ P before text) ↔
      ∃ before rest n, cs = before ++ rest ∧ Visits cs rest ∧ cut? rest = some (x, n) ∧
      P before (rest.take n) := by
  constructor
  · rintro ⟨before, text, hpiece, hP⟩
    obtain ⟨rest, n, hcs, hvisits, hcut, rfl⟩ := isPiece_pieces_iff.mp hpiece
    exact ⟨before, rest, n, hcs, hvisits, hcut, hP⟩
  · rintro ⟨before, rest, n, hcs, hvisits, hcut, hP⟩
    exact ⟨before, _, isPiece_pieces_iff.mpr ⟨rest, n, hcs, hvisits, hcut, rfl⟩, hP⟩

end Lexer

namespace Lexing

open Lexer

variable {start : Nat} {ps : List Piece}

theorem mem_tokens_ofPieces_iff {t : Token} : t ∈ (ofPieces start ps).tokens ↔ ∃ before text,
    IsPiece ps (.token t.kind) before text ∧
      t = ⟨t.kind, start + width before, start + width before + width text,
        String.ofList text⟩ := by
  constructor
  · intro h
    induction ps generalizing start with
    | nil => cases h
    | cons p ps ih =>
      have hlater (h : t ∈ (ofPieces (start + width p.text) ps).tokens) :=
        exists_isPiece_cons
          (P := fun n text => t = ⟨t.kind, n, n + width text, String.ofList text⟩) (ih h)
      obtain ⟨_ | (kind | kind), text⟩ := p
      · exact hlater h
      · rcases List.mem_cons.mp h with rfl | h
        · exact ⟨[], text, ⟨[], ps, rfl, rfl⟩, rfl⟩
        · exact hlater h
      · exact hlater h
  · rintro ⟨_, text, ⟨pre, post, rfl, rfl⟩, ht⟩
    rw [ofPieces_append]
    exact List.mem_append_right _ (ht ▸ List.mem_cons_self)

theorem mem_trivia_ofPieces_iff {t : Trivia} : t ∈ (ofPieces start ps).trivia ↔ ∃ before text,
    IsPiece ps (.trivia t.kind) before text ∧
      t = ⟨t.kind, start + width before, start + width before + width text⟩ := by
  constructor
  · intro h
    induction ps generalizing start with
    | nil => cases h
    | cons p ps ih =>
      have hlater (h : t ∈ (ofPieces (start + width p.text) ps).trivia) :=
        exists_isPiece_cons (P := fun n text => t = ⟨t.kind, n, n + width text⟩) (ih h)
      obtain ⟨_ | (kind | kind), text⟩ := p
      · exact hlater h
      · exact hlater h
      · rcases List.mem_cons.mp h with rfl | h
        · exact ⟨[], text, ⟨[], ps, rfl, rfl⟩, rfl⟩
        · exact hlater h
  · rintro ⟨_, text, ⟨pre, post, rfl, rfl⟩, ht⟩
    rw [ofPieces_append]
    exact List.mem_append_right _ (ht ▸ List.mem_cons_self)

/-- The tokens of a source are what the lexer cuts off as tokens where it comes to stand. -/
theorem mem_tokens_ofText_iff {source : String} {t : Token} : t ∈ (ofText source).tokens ↔
    ∃ before rest n,
    source.toList = before ++ rest ∧ Visits source.toList rest ∧
    cut? rest = some (.token t.kind, n) ∧
      t = ⟨t.kind, width before, width before + width (rest.take n),
        String.ofList (rest.take n)⟩ := by
  simp only [ofText, mem_tokens_ofPieces_iff, exists_isPiece_pieces_iff, Nat.zero_add]

/-- The trivia of a source are what the lexer cuts off as trivia where it comes to stand. -/
theorem mem_trivia_ofText_iff {source : String} {t : Trivia} : t ∈ (ofText source).trivia ↔
    ∃ before rest n,
    source.toList = before ++ rest ∧ Visits source.toList rest ∧
    cut? rest = some (.trivia t.kind, n) ∧
      t = ⟨t.kind, width before, width before + width (rest.take n)⟩ := by
  simp only [ofText, mem_trivia_ofPieces_iff, exists_isPiece_pieces_iff, Nat.zero_add]

/-- The piece of trivia where the lexer stands, if there is one, is what is cut off there. -/
theorem mem_trivia_ofText_here_iff {source : String} {before rest : List Char}
    (hsource : source.toList = before ++ rest) (hvisits : Visits source.toList rest)
    {k : TriviaKind} {stop : Nat} :
    ⟨k, width before, stop⟩ ∈ (ofText source).trivia ↔
      ∃ n, cut? rest = some (.trivia k, n) ∧ stop = width before + width (rest.take n) := by
  rw [mem_trivia_ofText_iff]
  constructor
  · rintro ⟨before', rest', n, hsource', -, hcut, ht⟩
    obtain ⟨-, hstart, hstop⟩ := Trivia.mk.inj ht
    have hbefore := eq_of_width_eq (hsource.symm.trans hsource') hstart
    rw [hsource, hbefore] at hsource'
    rw [List.append_cancel_left hsource', hstart]
    exact ⟨n, hcut, hstop⟩
  · rintro ⟨n, hcut, rfl⟩
    exact ⟨before, rest, n, hsource, hvisits, hcut, rfl⟩

/-- What starts earlier in a lexed text ends where the later one starts, or before. -/
theorem stop_le_start {source : String} {s s' : Nat × Nat} (hs : s ∈ (ofText source).spans)
    (hs' : s' ∈ (ofText source).spans) (hlt : s.1 < s'.1) : s.2 ≤ s'.1 := by
  have hsymm : Std.Symm fun s s' : Nat × Nat => s.2 ≤ s'.1 ∨ s'.2 ≤ s.1 := ⟨fun _ _ => Or.symm⟩
  have hne : s ≠ s' := by
    rintro rfl
    exact Nat.lt_irrefl _ hlt
  have hpos := (partitions_ofText source).nonempty s hs
  rcases (partitions_ofText source).disjoint.forall hs hs' hne with h | h
  · exact h
  · have hpos' := (partitions_ofText source).nonempty s' hs'
    omega

end Lexing

end LessCss
