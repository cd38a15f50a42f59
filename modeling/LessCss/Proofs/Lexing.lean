import Mathlib.Data.List.Chain
import LessCss.Token.Lexer

/-!
# Nothing is lost in lexing

The pieces of a text stand side by side, so that their places are read off the widths of the pieces
before them (`Lexer.spansFrom`).  Tokens, trivia and stray stretches only sort these places into
three lists (`Lexing.spans_perm`), and sorting all of them by their starts brings back the order of
the pieces.

For the stray stretches it matters how they come about: a stretch grows to the left, one character
at a time, and each time because no rule matches at that character.  Hence no rule matches anywhere
inside of one (`Lexer.Unmatched`), and two of them are never neighbours (`Lexer.Apart`).
-/

namespace LessCss

namespace Text

/-- A byte offset that lies between two characters of a text, or at one of its ends. -/
def IsBoundary (cs : List Char) (n : Nat) : Prop := ∃ a b, cs = a ++ b ∧ n = width a

theorem width_toList (s : String) : width s.toList = s.utf8ByteSize := by
  have hsize (cs : List Char) : width cs = (String.ofList cs).utf8ByteSize := by
    induction cs with
    | nil => rfl
    | cons c cs ih =>
      rw [String.ofList_cons, String.utf8ByteSize_append, String.utf8ByteSize_singleton,
        width_cons, ih]
  rw [hsize, String.ofList_toList]

theorem width_pos {cs : List Char} (h : cs ≠ []) : 0 < width cs := by
  cases cs with
  | nil => exact absurd rfl h
  | cons c cs =>
    have hc := c.utf8Size_pos
    rw [width_cons]
    omega

/-- Of two ways to cut a text, the one that is not narrower is the longer one. -/
theorem exists_append_of_width_le {a b x y : List Char} (h : a ++ b = x ++ y)
    (hw : width x ≤ width a) : ∃ u, a = x ++ u ∧ y = u ++ b := by
  rcases List.append_eq_append_iff.mp h with ⟨u, hx, hb⟩ | ⟨u, ha, hy⟩
  · have hu : u = [] := by
      by_contra hne
      have hpos := width_pos hne
      rw [hx, width_append] at hw
      omega
    subst hu
    exact ⟨[], by simpa using hx.symm, by simpa using hb.symm⟩
  · exact ⟨u, ha, hy⟩

end Text

open Text

namespace Lexer

/-! ## What the pieces of a text are like -/

/-- The text of some pieces, side by side. -/
def textOf (ps : List Piece) : List Char := (ps.map Piece.text).flatten

@[simp] theorem textOf_nil : textOf [] = [] := rfl

@[simp] theorem textOf_cons (p : Piece) (ps : List Piece) :
    textOf (p :: ps) = p.text ++ textOf ps := rfl

@[simp] theorem textOf_append (ps qs : List Piece) :
    textOf (ps ++ qs) = textOf ps ++ textOf qs := by
  simp [textOf]

/-- What the pieces of a text hold, put side by side, is the text. -/
theorem textOf_pieces (cs : List Char) : textOf (pieces cs) = cs := flatten_text_pieces cs

/-- A rule that matches cuts off at least one character. -/
theorem Rule.cut?_pos {r : Rule} {cs : List Char} {x : Cut} {n : Nat}
    (h : r.cut? cs = some (x, n)) :
    0 < n := by
  unfold Rule.cut? at h
  split at h
  · contradiction
  · contradiction
  · rename_i n hn hmatch
    have hpos : 0 < n := Nat.pos_of_ne_zero fun h0 => hn (by rw [h0])
    split at h
    · cases h; exact hpos
    · split at h
      · cases h; exact hpos
      · split at h
        · cases h; omega
        · cases h; exact hpos

/-- A cut takes at least one character. -/
theorem cut?_pos {cs : List Char} {x : Cut} {n : Nat} (h : cut? cs = some (x, n)) : 0 < n := by
  obtain ⟨r, _, hr⟩ := List.exists_of_findSome?_eq_some h
  exact Rule.cut?_pos hr

/-- No piece is empty. -/
theorem text_ne_nil {cs : List Char} : ∀ p ∈ pieces cs, p.text ≠ [] := by
  fun_induction pieces cs with
  | case1 => simp
  | case2 c cs cut n _ ih =>
    intro p hp
    rcases List.mem_cons.mp hp with rfl | hp
    · simp
    · exact ih p hp
  | case3 c cs _ ih =>
    intro p hp
    unfold skip at hp
    split at hp
    · rename_i text ps hps
      rcases List.mem_cons.mp hp with rfl | hp
      · simp
      · exact ih p (by rw [hps]; exact List.mem_cons_of_mem _ hp)
    · rcases List.mem_cons.mp hp with rfl | hp
      · simp
      · exact ih p hp

/-- No two stray pieces are neighbours. -/
def Apart (ps : List Piece) : Prop := ps.IsChain fun p q => ¬ (p.cut = none ∧ q.cut = none)

/-- No rule matches at any character of a stray piece. -/
def Unmatched : List Piece → Prop
  | [] => True
  | p :: ps =>
    (p.cut = none → ∀ u v, p.text = u ++ v → v ≠ [] → cut? (v ++ textOf ps) = none) ∧ Unmatched ps

theorem Unmatched.of_append {ps qs : List Piece} (h : Unmatched (ps ++ qs)) : Unmatched qs := by
  induction ps with
  | nil => exact h
  | cons p ps ih => exact ih h.2

theorem apart_skip {c : Char} {ps : List Piece} (h : Apart ps) : Apart (skip c ps) := by
  unfold skip
  split
  · rename_i text ps
    cases ps with
    | nil => exact List.IsChain.singleton _
    | cons q qs => exact List.isChain_cons_cons.mpr (List.isChain_cons_cons.mp h)
  · rename_i hne
    cases ps with
    | nil => exact List.IsChain.singleton _
    | cons q qs =>
      refine List.isChain_cons_cons.mpr ⟨fun hq => ?_, h⟩
      obtain ⟨cut, text⟩ := q
      exact hne text qs (by rw [show cut = none from hq.2])

/-- Two stray pieces are never next to each other. -/
theorem apart_pieces (cs : List Char) : Apart (pieces cs) := by
  fun_induction pieces cs with
  | case1 => exact List.IsChain.nil
  | case2 c cs cut n _ ih =>
    cases hps : pieces (cs.drop n) with
    | nil => exact List.IsChain.singleton _
    | cons q qs =>
      rw [hps] at ih
      exact List.isChain_cons_cons.mpr ⟨by simp, ih⟩
  | case3 c cs _ ih => exact apart_skip ih

/-- A character at which no rule matches may be put in front of the pieces behind it. -/
theorem unmatched_skip {c : Char} {ps : List Piece} (hc : cut? (c :: textOf ps) = none)
    (h : Unmatched ps) : Unmatched (skip c ps) := by
  unfold skip
  split
  · rename_i text ps
    refine ⟨fun _ u v huv hv => ?_, h.2⟩
    -- the stretch from its new first character on, or from a later one
    rcases List.cons_eq_append_iff.mp huv with ⟨rfl, rfl⟩ | ⟨u', rfl, htext⟩
    · exact hc
    · exact h.1 rfl u' v htext hv
  · refine ⟨fun _ u v huv hv => ?_, h⟩
    rcases List.cons_eq_append_iff.mp huv with ⟨rfl, rfl⟩ | ⟨u', rfl, hnil⟩
    · exact hc
    · exact absurd (List.append_eq_nil_iff.mp hnil.symm).2 hv

/-- No rule matches at a character of a stray piece. -/
theorem unmatched_pieces (cs : List Char) : Unmatched (pieces cs) := by
  fun_induction pieces cs with
  | case1 => exact trivial
  | case2 c cs cut n _ ih => exact ⟨fun h => by simp at h, ih⟩
  | case3 c cs hcut ih =>
    refine unmatched_skip ?_ ih
    rw [textOf_pieces]
    cases h : cut? (c :: cs) with
    | none => rfl
    | some x =>
      obtain ⟨x, n⟩ := x
      obtain ⟨m, rfl⟩ := Nat.exists_eq_add_of_lt (cut?_pos h)
      exact absurd (by rw [h]) (hcut x (0 + m))

/-! ## The places of the pieces -/

/-- The places of some pieces, the first one starting at byte `start`. -/
def spansFrom (start : Nat) : List Piece → List (Nat × Nat)
  | [] => []
  | p :: ps => (start, start + width p.text) :: spansFrom (start + width p.text) ps

/-- A place belongs to a piece, and starts behind all pieces before it. -/
theorem mem_spansFrom {start : Nat} {ps : List Piece} {s : Nat × Nat} (h : s ∈ spansFrom start ps) :
    ∃ pre p post, ps = pre ++ p :: post ∧ s.1 = start + width (textOf pre) ∧
      s.2 = s.1 + width p.text := by
  induction ps generalizing start with
  | nil => exact absurd h List.not_mem_nil
  | cons p ps ih =>
    rcases List.mem_cons.mp h with rfl | h
    · exact ⟨[], p, ps, rfl, by simp, rfl⟩
    · obtain ⟨pre, q, post, rfl, h₁, h₂⟩ := ih h
      exact ⟨p :: pre, q, post, rfl, by rw [h₁, textOf_cons, width_append, Nat.add_assoc], h₂⟩

/-- The pieces lie at or behind the place they are counted from. -/
theorem le_of_mem_spansFrom {start : Nat} {ps : List Piece} {s : Nat × Nat}
    (h : s ∈ spansFrom start ps) : start ≤ s.1 := by
  obtain ⟨pre, p, post, _, hs, _⟩ := mem_spansFrom h
  omega

/-- Every place ends before all later ones start. -/
theorem pairwise_spansFrom (start : Nat) (ps : List Piece) :
    (spansFrom start ps).Pairwise fun s t => s.2 ≤ t.1 := by
  induction ps generalizing start with
  | nil => exact List.Pairwise.nil
  | cons p ps ih => exact List.pairwise_cons.mpr ⟨fun t ht => le_of_mem_spansFrom ht, ih _⟩

/-- The places cover all bytes from the start of the first piece to the end of the last. -/
theorem exists_mem_spansFrom_iff (start : Nat) (ps : List Piece) (n : Nat) :
    (∃ s ∈ spansFrom start ps, s.1 ≤ n ∧ n < s.2) ↔ start ≤ n ∧ n < start + width (textOf ps) := by
  induction ps generalizing start with
  | nil => simp [spansFrom]
  | cons p ps ih =>
    simp only [spansFrom, List.mem_cons, exists_eq_or_imp, ih, textOf_cons, width_append]
    omega

/-- Cutting a text at the places of its pieces gives the pieces. -/
theorem flatMap_slice_spansFrom (before : List Char) (ps : List Piece) :
    (spansFrom (width before) ps).flatMap (fun s => slice (before ++ textOf ps) s.1 s.2) =
      textOf ps := by
  induction ps generalizing before with
  | nil => rfl
  | cons p ps ih =>
    have hfirst : slice (before ++ textOf (p :: ps)) (width before) (width before + width p.text) =
        p.text := by
      rw [textOf_cons, ← List.append_assoc, ← width_append, slice_append]
    have hrest := ih (before ++ p.text)
    rw [width_append, List.append_assoc] at hrest
    rw [spansFrom, List.flatMap_cons, hfirst, textOf_cons, hrest]

end Lexer

namespace Lexing

open Lexer

/-! ## The lexed text -/

/-- The places of tokens, trivia and stray stretches are those of the pieces. -/
theorem spans_perm (start : Nat) (ps : List Piece) :
    (ofPieces start ps).spans.Perm (spansFrom start ps) := by
  induction ps generalizing start with
  | nil => exact List.Perm.refl _
  | cons p ps ih =>
    have ih := ih (start + width p.text)
    obtain ⟨cut, text⟩ := p
    rcases cut with _ | (kind | kind)
    · exact (List.perm_middle).trans (ih.cons _)
    · exact ih.cons _
    · simp only [spans, ofPieces, spansFrom, List.map_cons, List.append_assoc, List.cons_append]
      simp only [spans, List.append_assoc] at ih
      exact (List.perm_middle).trans (ih.cons _)

/-- The order in which places are sorted. -/
def before (s t : Nat × Nat) : Bool := s.1 < t.1 || (s.1 == t.1 && s.2 ≤ t.2)

theorem before_iff {s t : Nat × Nat} : before s t = true ↔ s.1 < t.1 ∨ s.1 = t.1 ∧ s.2 ≤ t.2 := by
  simp [before]

/-- Sorting brings back the order of the pieces. -/
theorem mergeSort_spans (start : Nat) (ps : List Piece) :
    (ofPieces start ps).spans.mergeSort before = spansFrom start ps := by
  have hperm := (List.mergeSort_perm (ofPieces start ps).spans before).trans (spans_perm start ps)
  refine @List.Perm.eq_of_pairwise _ (before · · = true) _ _ ?_ ?_ ?_ hperm
  · intro s t _ _ hst hts
    rw [before_iff] at hst hts
    exact Prod.ext (by omega) (by omega)
  · refine List.pairwise_mergeSort ?_ ?_ _
    · intro a b c hab hbc
      rw [before_iff] at *
      omega
    · intro a b
      rw [Bool.or_eq_true, before_iff, before_iff]
      omega
  · refine (pairwise_spansFrom start ps).imp_of_mem ?_
    intro s t hs ht hst
    obtain ⟨_, p, _, _, _, hs⟩ := mem_spansFrom hs
    obtain ⟨_, q, _, _, _, ht⟩ := mem_spansFrom ht
    rw [before_iff]
    omega

/-- Tokens, trivia and strays in the order of their places spell the source. -/
theorem coveredText_ofText (source : String) : (ofText source).coveredText source = source := by
  have hsort := mergeSort_spans 0 (pieces source.toList)
  have hslices := flatMap_slice_spansFrom [] (pieces source.toList)
  rw [List.nil_append, textOf_pieces] at hslices
  change String.ofList (((ofText source).spans.mergeSort before).flatMap _) = source
  rw [ofText, hsort]
  exact (congrArg String.ofList hslices).trans (String.ofList_toList ..)

/-- A stray stretch is a stray piece at its place. -/
theorem mem_strays {start : Nat} {ps : List Piece} {s : Stray}
    (h : s ∈ (ofPieces start ps).strays) :
    ∃ pre p post, ps = pre ++ p :: post ∧ p.cut = none ∧ s.start = start + width (textOf pre) ∧
      s.stop = s.start + width p.text := by
  induction ps generalizing start with
  | nil => exact absurd h List.not_mem_nil
  | cons p ps ih =>
    -- behind the first piece
    have hlater (h : s ∈ (ofPieces (start + width p.text) ps).strays) :
        ∃ pre q post, p :: ps = pre ++ q :: post ∧ q.cut = none ∧
          s.start = start + width (textOf pre) ∧ s.stop = s.start + width q.text := by
      obtain ⟨pre, q, post, rfl, hcut, h₁, h₂⟩ := ih h
      exact ⟨p :: pre, q, post, rfl, hcut, by rw [h₁, textOf_cons, width_append, Nat.add_assoc], h₂⟩
    obtain ⟨cut, text⟩ := p
    rcases cut with _ | (kind | kind)
    · rcases List.mem_cons.mp h with rfl | h
      · exact ⟨[], ⟨none, text⟩, ps, rfl, rfl, by simp, rfl⟩
      · exact hlater h
    · exact hlater h
    · exact hlater h

/-- No rule matches at any character of a stray stretch. -/
theorem cut?_eq_none_of_mem_strays {source : String} {s : Stray} (hs : s ∈ (ofText source).strays)
    {a b : List Char} (hab : source.toList = a ++ b) (hstart : s.start ≤ width a)
    (hstop : width a < s.stop) : cut? b = none := by
  obtain ⟨pre, p, post, hps, hcut, h₁, h₂⟩ := mem_strays hs
  have htext : a ++ b = textOf pre ++ (p.text ++ textOf post) := by
    rw [← hab, ← textOf_cons, ← textOf_append, ← hps, textOf_pieces]
  obtain ⟨u, rfl, hu⟩ := exists_append_of_width_le htext (by omega)
  rw [width_append] at hstop
  rcases List.append_eq_append_iff.mp hu with ⟨v, rfl, _⟩ | ⟨v, hp, rfl⟩
  · rw [width_append] at hstop
    omega
  · have hv : v ≠ [] := by
      rintro rfl
      rw [List.append_nil] at hp
      rw [hp] at h₂
      omega
    have hunmatched := unmatched_pieces source.toList
    rw [hps] at hunmatched
    exact hunmatched.of_append.1 hcut u v hp hv

/-- The pieces before a place are known from their width, as no piece is empty. -/
theorem append_left_inj_of_width {pre post pre' post' : List Piece}
    (hne : ∀ p ∈ pre ++ post, p.text ≠ []) (h : pre ++ post = pre' ++ post')
    (hw : width (textOf pre) = width (textOf pre')) : pre = pre' := by
  have hnil {u : List Piece} (hu : ∀ p ∈ u, p.text ≠ []) (hw : width (textOf u) = 0) : u = [] := by
    cases u with
    | nil => rfl
    | cons p u =>
      have hp := width_pos (hu p List.mem_cons_self)
      rw [textOf_cons, width_append] at hw
      omega
  rcases List.append_eq_append_iff.mp h with ⟨u, rfl, hpost⟩ | ⟨u, rfl, hpost⟩
  · rw [textOf_append, width_append] at hw
    have hu : u = [] := hnil (fun p hp => hne p (by simp [hpost, hp])) (by omega)
    rw [hu, List.append_nil]
  · rw [textOf_append, width_append] at hw
    have hu : u = [] := hnil (fun p hp => hne p (by simp [hp])) (by omega)
    rw [hu, List.append_nil]

/-- No stray stretch starts where another one ends. -/
theorem stop_ne_start_of_mem_strays {source : String} {s t : Stray}
    (hs : s ∈ (ofText source).strays) (ht : t ∈ (ofText source).strays) : s.stop ≠ t.start := by
  intro hst
  obtain ⟨pre, p, post, hps, hp, hs₁, hs₂⟩ := mem_strays hs
  obtain ⟨pre', q, post', hqs, hq, ht₁, ht₂⟩ := mem_strays ht
  have hps' : pieces source.toList = (pre ++ [p]) ++ post := by simp [hps]
  have hpre : pre ++ [p] = pre' := by
    refine append_left_inj_of_width (fun x hx => ?_) (hps'.symm.trans hqs) ?_
    · exact text_ne_nil x (by rw [hps']; exact hx)
    · rw [textOf_append, width_append, textOf_cons, textOf_nil, List.append_nil]
      omega
  -- the second stretch is the next piece behind the first one
  have hpost : post = q :: post' := by
    rw [hps', hpre] at hqs
    exact List.append_cancel_left hqs
  have hapart := apart_pieces source.toList
  rw [hps, hpost] at hapart
  exact (List.isChain_cons_cons.mp hapart.right_of_append).1 ⟨hp, hq⟩

/-- The places of a lexed text divide it up. -/
structure Partitions (l : Lexing) (source : String) : Prop where
  nonempty : ∀ s ∈ l.spans, s.1 < s.2
  boundary : ∀ s ∈ l.spans, IsBoundary source.toList s.1 ∧ IsBoundary source.toList s.2
  disjoint : l.spans.Pairwise fun s t => s.2 ≤ t.1 ∨ t.2 ≤ s.1
  covering : ∀ n, n < source.utf8ByteSize ↔ ∃ s ∈ l.spans, s.1 ≤ n ∧ n < s.2

theorem partitions_ofText (source : String) : (ofText source).Partitions source := by
  have hperm := spans_perm 0 (pieces source.toList)
  have hmem {s : Nat × Nat} (hs : s ∈ (ofText source).spans) :
      s ∈ spansFrom 0 (pieces source.toList) := hperm.mem_iff.mp hs
  constructor
  · intro s hs
    obtain ⟨pre, p, post, hps, h₁, h₂⟩ := mem_spansFrom (hmem hs)
    have hp := width_pos (text_ne_nil p (by rw [hps]; simp))
    omega
  · intro s hs
    obtain ⟨pre, p, post, hps, h₁, h₂⟩ := mem_spansFrom (hmem hs)
    have htext : source.toList = textOf pre ++ (p.text ++ textOf post) := by
      rw [← textOf_cons, ← textOf_append, ← hps, textOf_pieces]
    refine ⟨⟨_, _, htext, by omega⟩, ⟨textOf pre ++ p.text, textOf post, ?_, ?_⟩⟩
    · rw [htext, List.append_assoc]
    · rw [width_append]
      omega
  · refine List.Pairwise.perm ?_ hperm.symm Or.symm
    exact (pairwise_spansFrom 0 _).imp Or.inl
  · intro n
    have hcover := exists_mem_spansFrom_iff 0 (pieces source.toList) n
    rw [textOf_pieces, width_toList] at hcover
    constructor
    · intro hn
      obtain ⟨s, hs, hsn⟩ := hcover.mpr ⟨Nat.zero_le n, by omega⟩
      exact ⟨s, hperm.mem_iff.mpr hs, hsn⟩
    · rintro ⟨s, hs, hsn⟩
      have := (hcover.mp ⟨s, hmem hs, hsn⟩).2
      omega

/-- **Lexing loses nothing, and is in doubt no longer than it has to be.**  Tokens, trivia and stray
stretches divide the text up and put side by side are the text; no rule matches at any character of
a stray stretch, and no two of these touch. -/
theorem ofText_lossless (source : String) :
    (ofText source).Partitions source ∧ (ofText source).coveredText source = source ∧
      (∀ s ∈ (ofText source).strays, ∀ a b, source.toList = a ++ b →
        s.start ≤ width a → width a < s.stop → cut? b = none) ∧
      ∀ s ∈ (ofText source).strays, ∀ t ∈ (ofText source).strays, s.stop ≠ t.start :=
  ⟨partitions_ofText source, coveredText_ofText source,
    fun _ hs _ _ => cut?_eq_none_of_mem_strays hs, fun _ hs _ ht =>
      stop_ne_start_of_mem_strays hs ht⟩

example : (ofText "é:$$ /**/b").strays.map (fun s => (s.start, s.stop)) = [(3, 5)] := by
  decide +kernel

end Lexing

end LessCss
